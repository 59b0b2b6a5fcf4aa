/-
Decisions about the holder of a version, while contexts are recycled.

`CtxInv` says what a context holds while its owner has it.  A reader checks the
owner after the state, so the state it has seen is the owner's (`Seen`); but it
reads `end` after the owner, and by then the context may belong to another
transaction.

* `decision_right` — if no context is reissued between the two reads, every
  decision is the comparison of the snapshot with the holder's true CSN;
* `stale_end_accepted` — a reissue in between makes an updater overwrite a
  version that was committed after its snapshot.
-/
import PreemptDB.XidContext

namespace PreemptDB

/-- The context belongs to the transaction. -/
def Stage.owns : Stage → Bool
  | fresh | freed => false
  | _ => true

/-- What the transaction has stored as its state. -/
def Stage.txnState : Stage → Option TxnState
  | active => some .active
  | committing | drawn | ended => some .committing
  | cmmtd => some .cmmtd
  | abrtd => some .abrtd
  | _ => none

/-- No CSN was taken. -/
def Stage.noCsn : Stage → Bool
  | fresh | owned | reset | active | committing | abrtd => true
  | _ => false

theorem Stage.owns_of_txnState {g : Stage} {st : TxnState} (h : g.txnState = some st) :
    g.owns = true := by
  cases g <;> first | rfl | cases h

namespace Contexts

variable {s s' : Contexts} {x y : Xid}

/-- What a context holds while it has an owner. -/
structure CtxInv (s : Contexts) : Prop where
  owner : ∀ {l x}, (s.ctx l).owner = some x → x.localId = l ∧ (s.txn x).stage.owns = true
  owned : ∀ {x}, (s.txn x).stage.owns = true → (s.ctx x.localId).owner = some x
  state : ∀ {x st}, (s.txn x).stage.txnState = some st → (s.ctx x.localId).state = st
  ended : ∀ {x}, (s.txn x).stage = .ended ∨ (s.txn x).stage = .cmmtd →
    (s.txn x).commitCsn = some (s.ctx x.localId).endCsn
  uncommitted : ∀ {x}, (s.txn x).stage.noCsn = true → (s.txn x).commitCsn = none

theorem ctxInv_init : CtxInv init where
  owner h := by cases h
  owned h := by cases h
  state h := by cases h
  ended h := by rcases h with h | h <;> cases h
  uncommitted _ := rfl

/-- Two transactions do not share a context. -/
theorem CtxInv.localId_ne (h : CtxInv s) (hy : (s.txn y).stage.owns = true) (hne : y ≠ x)
    (hx : (s.ctx x.localId).owner = some x ∨ (s.ctx x.localId).owner = none) :
    y.localId ≠ x.localId := by
  intro heq
  have hown := h.owned hy
  rw [heq] at hown
  rcases hx with hx | hx
  · rw [hx, Option.some_inj] at hown
    exact hne hown.symm
  · rw [hx] at hown
    cases hown

/-- A step of `x` on its own context. -/
theorem CtxInv.set (h : CtxInv s) {T : Incarnation} {C : XidContext}
    (hctx : s'.ctx = Function.update s.ctx x.localId C)
    (htxn : s'.txn = Function.update s.txn x T)
    (hx : (s.ctx x.localId).owner = some x ∨ (s.ctx x.localId).owner = none)
    (howner : C.owner = if T.stage.owns then some x else none)
    (hstate : ∀ {st}, T.stage.txnState = some st → C.state = st)
    (hended : T.stage = .ended ∨ T.stage = .cmmtd → T.commitCsn = some C.endCsn)
    (hnone : T.stage.noCsn = true → T.commitCsn = none) : CtxInv s' := by
  have hself : s'.ctx x.localId = C ∧ s'.txn x = T := by
    rw [hctx, htxn, Function.update_self, Function.update_self]
    exact ⟨rfl, rfl⟩
  have hother : ∀ y, y ≠ x → s'.txn y = s.txn y := by
    intro y hy
    rw [htxn, Function.update_of_ne hy]
  -- the contexts of the other owners are untouched
  have hkeep : ∀ y, y ≠ x → (s.txn y).stage.owns = true →
      s'.ctx y.localId = s.ctx y.localId := by
    intro y hy hown
    rw [hctx, Function.update_of_ne (h.localId_ne hown hy hx)]
  constructor
  case owner =>
    intro l y hy
    by_cases hl : l = x.localId
    · rw [hl, hself.1, howner] at hy
      split_ifs at hy with hown
      cases hy
      rw [hself.2]
      exact ⟨hl.symm, hown⟩
    · rw [hctx, Function.update_of_ne hl] at hy
      obtain ⟨hloc, hown⟩ := h.owner hy
      have hne : y ≠ x := fun heq => hl (by rw [← hloc, heq])
      rw [hother y hne]
      exact ⟨hloc, hown⟩
  case owned =>
    intro y hy
    by_cases hyx : y = x
    · rw [hyx, hself.2] at hy
      rw [hyx, hself.1, howner, if_pos hy]
    · rw [hother y hyx] at hy
      rw [hkeep y hyx hy]
      exact h.owned hy
  case state =>
    intro y st hy
    by_cases hyx : y = x
    · rw [hyx, hself.2] at hy
      rw [hyx, hself.1]
      exact hstate hy
    · rw [hother y hyx] at hy
      rw [hkeep y hyx (Stage.owns_of_txnState hy)]
      exact h.state hy
  case ended =>
    intro y hy
    by_cases hyx : y = x
    · rw [hyx, hself.2] at hy
      rw [hyx, hself.1, hself.2]
      exact hended hy
    · rw [hother y hyx] at hy ⊢
      have hown : (s.txn y).stage.owns = true := by
        rcases hy with hy | hy <;> rw [hy] <;> rfl
      rw [hkeep y hyx hown]
      exact h.ended hy
  case uncommitted =>
    intro y hy
    by_cases hyx : y = x
    · rw [hyx, hself.2] at hy ⊢
      exact hnone hy
    · rw [hother y hyx] at hy ⊢
      exact h.uncommitted hy

/-! ### What a step of a transaction can do -/

/-- The transaction `x` has made a step. -/
structure HolderStep (s s' : Contexts) (x : Xid) : Prop where
  inv : CtxInv s'
  probe : s'.probe = s.probe
  currentCsn : s.currentCsn ≤ s'.currentCsn
  ctx : ∀ l, l ≠ x.localId → s'.ctx l = s.ctx l
  txn : ∀ y, y ≠ x → s'.txn y = s.txn y
  owner : (s.ctx x.localId).owner = some x ∨ (s.txn x).stage = .fresh
  unfreed : (s.txn x).stage ≠ .freed
  started : (s.txn x).stage.started = true → (s'.txn x).stage.started = true
  commit : (s'.txn x).commitCsn = (s.txn x).commitCsn ∨
    (s.txn x).commitCsn = none ∧ (s'.txn x).commitCsn = some s.currentCsn
  last : (s.txn x).stage = .cmmtd ∨ (s.txn x).stage = .abrtd →
    (s'.txn x).stage = .freed ∧ (s'.txn x).commitCsn = (s.txn x).commitCsn ∧
      (s'.ctx x.localId).endCsn = (s.ctx x.localId).endCsn ∧ (s'.ctx x.localId).owner = none

/-- A step of a transaction that has its context or takes it. -/
theorem CtxInv.holderStep (h : CtxInv s) {T : Incarnation} {C : XidContext}
    (hctx : s'.ctx = Function.update s.ctx x.localId C)
    (htxn : s'.txn = Function.update s.txn x T) (hprobe : s'.probe = s.probe)
    (hcsn : s.currentCsn ≤ s'.currentCsn)
    (hx : (s.ctx x.localId).owner = some x ∨
      (s.txn x).stage = .fresh ∧ (s.ctx x.localId).owner = none)
    (howner : C.owner = if T.stage.owns then some x else none)
    (hstate : ∀ {st}, T.stage.txnState = some st → C.state = st)
    (hended : T.stage = .ended ∨ T.stage = .cmmtd → T.commitCsn = some C.endCsn)
    (hnone : T.stage.noCsn = true → T.commitCsn = none)
    (hunfreed : (s.txn x).stage ≠ .freed)
    (hstarted : (s.txn x).stage.started = true → T.stage.started = true)
    (hcommit : T.commitCsn = (s.txn x).commitCsn ∨
      (s.txn x).commitCsn = none ∧ T.commitCsn = some s.currentCsn)
    (hlast : (s.txn x).stage = .cmmtd ∨ (s.txn x).stage = .abrtd → T.stage = .freed ∧
      T.commitCsn = (s.txn x).commitCsn ∧ C.endCsn = (s.ctx x.localId).endCsn ∧ C.owner = none) :
    HolderStep s s' x := by
  have hself : s'.ctx x.localId = C ∧ s'.txn x = T := by
    rw [hctx, htxn, Function.update_self, Function.update_self]
    exact ⟨rfl, rfl⟩
  refine ⟨h.set hctx htxn (hx.imp id And.right) howner hstate hended hnone, hprobe, hcsn,
    fun l hl => ?_, fun y hy => ?_, hx.imp id And.left, hunfreed, ?_, ?_, ?_⟩
  · rw [hctx, Function.update_of_ne hl]
  · rw [htxn, Function.update_of_ne hy]
  · rw [hself.2]
    exact hstarted
  · rw [hself.2]
    exact hcommit
  · rw [hself.1, hself.2]
    exact hlast

/-- The transaction of an access that a transaction makes. -/
def holder : CtxAct → Option Xid
  | .claim x | .resetEnd x | .activate x | .commit x | .draw x | .storeEnd x | .publish x
  | .abort x | .free x => some x
  | _ => none

/-- Every access of a transaction is such a step. -/
theorem CtxInv.step_holder (h : CtxInv s) {a : CtxAct} (ha : holder a = some x)
    (hs : s.step a = some s') : HolderStep s s' x := by
  -- what the stage of the transaction says about its context
  have own : ∀ {g}, (s.txn x).stage = g → g.owns = true →
      (s.ctx x.localId).owner = some x := by
    intro g hg hown
    exact h.owned (hg ▸ hown)
  have uncommitted : ∀ {g}, (s.txn x).stage = g → g.noCsn = true →
      (s.txn x).commitCsn = none := by
    intro g hg hno
    exact h.uncommitted (hg ▸ hno)
  have stored : ∀ {g st}, (s.txn x).stage = g → g.txnState = some st →
      (s.ctx x.localId).state = st := by
    intro g st hg hst
    exact h.state (hg ▸ hst)
  cases a <;> simp only [holder, Option.some_inj, reduceCtorEq] at ha <;> subst ha <;>
    simp only [step] at hs
  case claim =>
    split_ifs at hs with hg
    cases hs
    have hno := uncommitted hg.1 rfl
    refine h.holderStep rfl rfl rfl le_rfl (.inr hg) ?_ ?_ ?_ ?_ ?_ ?_ ?_ ?_ <;>
      simp [Stage.owns, Stage.txnState, Stage.started, hg.1, hno]
  case resetEnd | activate | commit =>
    split_ifs at hs with hg
    cases hs
    have hown := own hg rfl
    have hno := uncommitted hg rfl
    refine h.holderStep rfl rfl rfl le_rfl (.inl hown) ?_ ?_ ?_ ?_ ?_ ?_ ?_ ?_ <;>
      simp [Stage.owns, Stage.txnState, Stage.started, hg, hown, hno]
  case draw =>
    split_ifs at hs with hg
    cases hs
    have hown := own hg rfl
    have hno := uncommitted hg rfl
    have hst := stored hg rfl
    refine h.holderStep rfl rfl rfl (Nat.le_succ _) (.inl hown) ?_ ?_ ?_ ?_ ?_ ?_ ?_ ?_ <;>
      simp [Stage.owns, Stage.txnState, Stage.started, Stage.noCsn, hg, hown, hno, hst]
  case storeEnd =>
    split at hs
    · rename_i csn hg hcsn
      cases hs
      have hown := own hg rfl
      have hst := stored hg rfl
      refine h.holderStep rfl rfl rfl le_rfl (.inl hown) ?_ ?_ ?_ ?_ ?_ ?_ ?_ ?_ <;>
        simp [Stage.owns, Stage.txnState, Stage.started, Stage.noCsn, hg, hown, hcsn, hst]
    · cases hs
  case publish =>
    split_ifs at hs with hg
    cases hs
    have hown := own hg rfl
    have hend := h.ended (.inl hg)
    refine h.holderStep rfl rfl rfl le_rfl (.inl hown) ?_ ?_ ?_ ?_ ?_ ?_ ?_ ?_ <;>
      simp [Stage.owns, Stage.txnState, Stage.started, Stage.noCsn, hg, hown, hend]
  case abort x =>
    split_ifs at hs with hg
    cases hs
    have hown : (s.ctx x.localId).owner = some x := hg.elim (own · rfl) (own · rfl)
    have hno : (s.txn x).commitCsn = none := hg.elim (uncommitted · rfl) (uncommitted · rfl)
    refine h.holderStep rfl rfl rfl le_rfl (.inl hown) ?_ ?_ ?_ ?_ ?_ ?_ ?_ ?_ <;>
      rcases hg with hg | hg <;>
      simp [Stage.owns, Stage.txnState, Stage.started, hg, hown, hno]
  case free x =>
    split_ifs at hs with hg
    cases hs
    have hown : (s.ctx x.localId).owner = some x := hg.elim (own · rfl) (own · rfl)
    refine h.holderStep rfl rfl rfl le_rfl (.inl hown) ?_ ?_ ?_ ?_ ?_ ?_ ?_ ?_ <;>
      rcases hg with hg | hg <;>
      simp [Stage.owns, Stage.txnState, Stage.started, Stage.noCsn, hg]

/-! ### What a reader knows -/

/-- The holder takes no CSN before the snapshot `b`. -/
def CommitsLater (s : Contexts) (x : Xid) (b : ℕ) : Prop :=
  ∀ c, (s.txn x).commitCsn = some c → b ≤ c

/-- What it means that the state `st` was read in the context of `x`. -/
def Seen (s : Contexts) (x : Xid) (b : ℕ) : TxnState → Prop
  | .active => s.CommitsLater x b
  | .committing => True
  | .cmmtd => (s.txn x).stage = .cmmtd
  | .abrtd => (s.txn x).stage = .abrtd

/-- The decision is the one that the true CSN of the holder gives: accept if it
has one and it is smaller than the snapshot. -/
def Right (s : Contexts) (x : Xid) (b : ℕ) (accept : Bool) : Prop :=
  accept = true ↔ ∃ c, (s.txn x).commitCsn = some c ∧ c < b

/-- What holds for a reader at each point of its XID branch. -/
def ProbeOk (s : Contexts) (p : Probe) : Prop :=
  p.begin ≤ s.currentCsn ∧
    match p.pc with
    | .startOver => True
    | .getContext x | .readState x => (s.txn x).stage.started = true
    | .readOwner x st => (s.txn x).stage.started = true ∧
        ((s.txn x).stage = .freed ∨ s.Seen x p.begin st)
    | .readEnd x => (s.txn x).commitCsn = some (s.ctx x.localId).endCsn ∧
        ((s.txn x).stage = .cmmtd ∨ (s.txn x).stage = .freed ∧ (s.ctx x.localId).owner = none)
    | .decided x accept => s.Right x p.begin accept

namespace HolderStep

theorem commitCsn (k : HolderStep s s' x) (y : Xid) :
    (s'.txn y).commitCsn = (s.txn y).commitCsn ∨
      (s.txn y).commitCsn = none ∧ (s'.txn y).commitCsn = some s.currentCsn := by
  by_cases hy : y = x
  · rw [hy]
    exact k.commit
  · rw [k.txn y hy]
    exact .inl rfl

/-- A CSN that is taken now is not smaller than any snapshot. -/
theorem commitsLater (k : HolderStep s s' x) {b : ℕ} (hb : b ≤ s.currentCsn)
    (h : s.CommitsLater y b) : s'.CommitsLater y b := by
  intro c hc
  rcases k.commitCsn y with hsame | ⟨-, hnew⟩
  · exact h c (hsame ▸ hc)
  · rw [hnew, Option.some_inj] at hc
    omega

theorem right (k : HolderStep s s' x) {b : ℕ} {accept : Bool} (hb : b ≤ s.currentCsn)
    (h : s.Right y b accept) : s'.Right y b accept := by
  rcases k.commitCsn y with hsame | ⟨hold, hnew⟩
  · rw [Right, hsame]
    exact h
  · rw [Right, hold] at h
    rw [Right, h, hnew]
    simp only [reduceCtorEq, false_and, exists_false, Option.some_inj, exists_eq_left', false_iff]
    omega

theorem started_mono (k : HolderStep s s' x) (h : (s.txn y).stage.started = true) :
    (s'.txn y).stage.started = true := by
  by_cases hy : y = x
  · rw [hy] at h ⊢
    exact k.started h
  · rwa [k.txn y hy]

/-- A freed holder stays freed, one that had ended is freed at most. -/
theorem seen (k : HolderStep s s' x) {b : ℕ} {st : TxnState} (hb : b ≤ s.currentCsn)
    (h : (s.txn y).stage = .freed ∨ s.Seen y b st) :
    (s'.txn y).stage = .freed ∨ s'.Seen y b st := by
  by_cases hy : y = x
  · rw [hy] at h ⊢
    rcases h with h | h
    · exact absurd h k.unfreed
    · cases st with
      | active => exact .inr (k.commitsLater hb h)
      | committing => exact .inr trivial
      | cmmtd => exact .inl (k.last (.inl h)).1
      | abrtd => exact .inl (k.last (.inr h)).1
  · cases st with
    | active => exact h.imp (by rw [k.txn y hy]; exact id) (k.commitsLater hb)
    | committing => exact .inr trivial
    | cmmtd | abrtd =>
      simp only [Seen] at h ⊢
      rwa [k.txn y hy]

/-- A step of a transaction keeps what the readers know, but a context must not
be taken from under a reader of `end`. -/
theorem probeOk (k : HolderStep s s' x) (h : CtxInv s) {p : Probe} (hp : ProbeOk s p)
    (hok : (s.txn x).stage = .fresh → ∀ y, p.pc = .readEnd y → y.localId ≠ x.localId) :
    ProbeOk s' p := by
  obtain ⟨hb, hpc⟩ := hp
  refine ⟨hb.trans k.currentCsn, ?_⟩
  cases hq : p.pc with
  | startOver => trivial
  | getContext y | readState y =>
    rw [hq] at hpc
    exact k.started_mono hpc
  | readOwner y st =>
    rw [hq] at hpc
    exact ⟨k.started_mono hpc.1, k.seen hb hpc.2⟩
  | decided y accept =>
    rw [hq] at hpc
    exact k.right hb hpc
  | readEnd y =>
    rw [hq] at hpc
    obtain ⟨hend, hstage⟩ := hpc
    by_cases hy : y = x
    · -- the holder itself frees its context, which leaves `end` as it is
      rw [hy] at hend hstage ⊢
      have hcm := hstage.resolve_right fun hf => k.unfreed hf.1
      obtain ⟨h1, h2, h3, h4⟩ := k.last (.inl hcm)
      exact ⟨by rw [h2, h3, hend], .inr ⟨h1, h4⟩⟩
    · have hloc : y.localId ≠ x.localId := by
        rcases k.owner with hx | hx
        · intro heq
          rcases hstage with hcm | ⟨-, hnone⟩
          · exact h.localId_ne (by rw [hcm]; rfl) hy (.inl hx) heq
          · rw [heq, hx] at hnone
            cases hnone
        · exact hok hx y hq
      show (s'.txn y).commitCsn = some (s'.ctx y.localId).endCsn ∧ _
      rw [k.txn y hy, k.ctx _ hloc]
      exact ⟨hend, hstage⟩

end HolderStep

/-! ### Steps of the readers -/

/-- The state in the context of a holder that has not been freed is its own. -/
theorem CtxInv.seen_state (h : CtxInv s) (b : ℕ) (hx : (s.txn x).stage.started = true) :
    (s.txn x).stage = .freed ∨ s.Seen x b (s.ctx x.localId).state := by
  have stored : ∀ st, (s.txn x).stage.txnState = some st → s.Seen x b st →
      s.Seen x b (s.ctx x.localId).state := by
    intro st hst hseen
    rw [h.state hst]
    exact hseen
  cases hg : (s.txn x).stage with
  | fresh | owned | reset =>
    rw [hg] at hx
    cases hx
  | freed => exact .inl rfl
  | active =>
    refine .inr (stored .active (by rw [hg]; rfl) fun c hc => ?_)
    rw [h.uncommitted (by rw [hg]; rfl)] at hc
    cases hc
  | committing | drawn | ended => exact .inr (stored .committing (by rw [hg]; rfl) trivial)
  | cmmtd => exact .inr (stored .cmmtd (by rw [hg]; rfl) hg)
  | abrtd => exact .inr (stored .abrtd (by rw [hg]; rfl) hg)

/-- The owner is checked after the state was read. -/
theorem CtxInv.afterOwner_ok (h : CtxInv s) {p : Probe} {st : TxnState}
    (hb : p.begin ≤ s.currentCsn) (hx : (s.txn x).stage.started = true)
    (hown : (s.ctx x.localId).owner = some x)
    (hseen : (s.txn x).stage = .freed ∨ s.Seen x p.begin st) :
    ProbeOk s { p with pc := afterOwner x st } := by
  have hnot : (s.txn x).stage ≠ .freed := by
    intro hf
    have := (h.owner hown).2
    rw [hf] at this
    cases this
  replace hseen := hseen.resolve_left hnot
  refine ⟨hb, ?_⟩
  -- rejecting is right if the holder takes no CSN before the snapshot
  have reject : s.CommitsLater x p.begin → s.Right x p.begin false := by
    intro hlater
    simp only [Right, Bool.false_eq_true, false_iff, not_exists, not_and, not_lt]
    exact hlater
  cases st with
  | active => exact reject hseen
  | committing => exact hx
  | cmmtd => exact ⟨h.ended (.inr hseen), .inl hseen⟩
  | abrtd =>
    refine reject fun c hc => ?_
    rw [h.uncommitted (by rw [show (s.txn x).stage = .abrtd from hseen]; rfl)] at hc
    cases hc

theorem accepts_iff (caller : Caller) (e b : ℕ) : caller.accepts e b = true ↔ e < b := by
  cases caller <;> simp [Caller.accepts]

/-- A reader has moved on. -/
theorem CtxInv.setProbe {n o : ℕ} {p : Probe} (h : CtxInv s) (hp : ∀ q < n, ProbeOk s (s.probe q))
    (hnew : ProbeOk s (s.probe o) → ProbeOk s p) :
    CtxInv { s with probe := Function.update s.probe o p } ∧
      ∀ q < n, ProbeOk s (Function.update s.probe o p q) := by
  refine ⟨⟨h.owner, h.owned, h.state, h.ended, h.uncommitted⟩, fun q hq => ?_⟩
  by_cases hqo : q = o
  · subst hqo
    rw [Function.update_self]
    exact hnew (hp q hq)
  · rw [Function.update_of_ne hqo]
    exact hp q hq

/-- The holder whose `end` the reader reads next. -/
def readsEnd : ProbePc → Option Xid
  | .readEnd x => some x
  | _ => none

/-- `take_one` does not reissue a context between the owner check of one of the
first `n` readers and its read of `end`. -/
def RecycleOk (n : ℕ) (s : Contexts) : CtxAct → Prop
  | .claim y => ∀ o < n, ∀ x ∈ readsEnd (s.probe o).pc, x.localId ≠ y.localId
  | _ => True

instance (n : ℕ) (s : Contexts) (a : CtxAct) : Decidable (s.RecycleOk n a) := by
  cases a <;> dsimp only [RecycleOk] <;> infer_instance

theorem RecycleOk.of_fresh {n : ℕ} {a : CtxAct} (hok : s.RecycleOk n a) (ha : holder a = some x)
    (hs : s.step a = some s') (hx : (s.txn x).stage = .fresh) {o : ℕ} (ho : o < n) :
    ∀ y, (s.probe o).pc = .readEnd y → y.localId ≠ x.localId := by
  intro y hy
  cases a <;> simp only [holder, Option.some_inj, reduceCtorEq] at ha <;> subst ha
  case claim => exact hok o ho y (by rw [hy]; exact rfl)
  -- every other step is one of a transaction that has been issued
  all_goals simp [step, hx] at hs

/-- Every access keeps the contexts and what the readers know. -/
theorem inv_step {n : ℕ} {a : CtxAct} (hok : s.RecycleOk n a) (hs : s.step a = some s')
    (h : CtxInv s) (hp : ∀ o < n, ProbeOk s (s.probe o)) :
    CtxInv s' ∧ ∀ o < n, ProbeOk s' (s'.probe o) := by
  cases ha : holder a with
  | some x =>
    have k := h.step_holder ha hs
    refine ⟨k.inv, fun o ho => ?_⟩
    rw [k.probe]
    exact k.probeOk h (hp o ho) fun hx => hok.of_fresh ha hs hx ho
  | none =>
    cases a <;> simp only [holder, reduceCtorEq] at ha <;> simp only [step] at hs
    case start o caller =>
      cases hs
      exact h.setProbe hp fun _ => ⟨le_rfl, trivial⟩
    case readCsn o x =>
      split at hs
      case h_3 => cases hs
      all_goals
        split_ifs at hs with hx
        cases hs
        exact h.setProbe hp fun hold => ⟨hold.1, hx⟩
    case getContext o =>
      split at hs
      · rename_i x hpc
        cases hs
        refine h.setProbe hp fun ⟨hb, hx⟩ => ?_
        rw [hpc] at hx
        split
        · exact ⟨hb, hx⟩
        · exact ⟨hb, trivial⟩
      · cases hs
    case readState o =>
      split at hs
      · rename_i x hpc
        cases hs
        refine h.setProbe hp fun ⟨hb, hx⟩ => ?_
        rw [hpc] at hx
        exact ⟨hb, hx, h.seen_state _ hx⟩
      · cases hs
    case readOwner o =>
      split at hs
      · rename_i x st hpc
        cases hs
        refine h.setProbe hp fun ⟨hb, hx⟩ => ?_
        rw [hpc] at hx
        split
        · rename_i hown
          exact h.afterOwner_ok hb hx.1 hown hx.2
        · exact ⟨hb, trivial⟩
      · cases hs
    case readEnd o =>
      split at hs
      · rename_i x hpc
        cases hs
        refine h.setProbe hp fun ⟨hb, hx⟩ => ?_
        rw [hpc] at hx
        refine ⟨hb, ?_⟩
        show s.Right x _ _
        simp [Right, accepts_iff, hx.1]
      · cases hs

end Contexts

open StepRun Contexts

/-- **Context recycling.**  If no context is reissued between the owner check of a
reader and its read of `end`, every decision that a reader or updater has made from
the XID branch is the one that the true commit CSN of the holder gives, and a
rejection if the holder has none. -/
theorem decision_right {n : ℕ} {acts : List CtxAct} {s : Contexts}
    (hok : Along Contexts.step (fun s => s.RecycleOk n) Contexts.init acts)
    (hr : run Contexts.step Contexts.init acts = some s) {o : ℕ} (ho : o < n) {x : Xid}
    {accept : Bool} (hpc : (s.probe o).pc = .decided x accept) :
    accept = true ↔ ∃ c, (s.txn x).commitCsn = some c ∧ c < (s.probe o).begin := by
  have hinv : CtxInv s ∧ ∀ o < n, ProbeOk s (s.probe o) := by
    refine run_invariant_along (I := fun s => CtxInv s ∧ ∀ o < n, ProbeOk s (s.probe o)) ?_ hok hr
      ⟨ctxInv_init, fun _ _ => ⟨le_rfl, trivial⟩⟩
    rintro s a s' hok hs ⟨h, hp⟩
    exact inv_step hok hs h hp
  have hright := (hinv.2 o ho).2
  rw [hpc] at hright
  exact hright

/-- `take_one`, as a whole. -/
def takeOneActs (x : Xid) : List CtxAct := [.claim x, .resetEnd x, .activate x]

/-- The successful `si_commit` of `x`. -/
def commitXid (x : Xid) : List CtxAct := [.commit x, .draw x, .storeEnd x, .publish x]

/-- After a first commit, a reader starts and finds the XID of an active
transaction, which then commits. -/
def staleActs (caller : Caller) : List CtxAct :=
  takeOneActs ⟨0, 0⟩ ++ commitXid ⟨0, 0⟩ ++ takeOneActs ⟨0, 1⟩ ++
    [.start 0 caller, .readCsn 0 ⟨0, 1⟩] ++ commitXid ⟨0, 1⟩ ++
    [.getContext 0, .readState 0, .readOwner 0]

theorem decision_right_stale :
    ∃ s, run Contexts.step Contexts.init
        (staleActs .testVisibility ++ [.free ⟨0, 1⟩, .readEnd 0] ++ takeOneActs ⟨4, 1⟩) = some s ∧
      (s.probe 0).pc = .decided ⟨0, 1⟩ false ∧ (s.txn ⟨0, 1⟩).commitCsn = some 1 ∧
      (false = true ↔
        ∃ c, (s.txn ⟨0, 1⟩).commitCsn = some c ∧ c < (s.probe 0).begin) := by
  have hok : Along Contexts.step (fun s => s.RecycleOk 1) Contexts.init
      (staleActs .testVisibility ++ [.free ⟨0, 1⟩, .readEnd 0] ++ takeOneActs ⟨4, 1⟩) := by decide
  exact ⟨_, rfl, rfl, rfl, decision_right hok rfl (o := 0) (by decide) rfl⟩

/-- The same run of an updater, but the context is freed and reissued before `end`
is read: the updater reads 0 and installs, although the holder committed with CSN 1
and the updater's snapshot is 1. -/
theorem stale_end_accepted :
    ∃ s, run Contexts.step Contexts.init
        (staleActs .updateTuple ++ [.free ⟨0, 1⟩] ++ takeOneActs ⟨4, 1⟩ ++ [.readEnd 0]) = some s ∧
      (s.probe 0).pc = .decided ⟨0, 1⟩ true ∧ (s.txn ⟨0, 1⟩).commitCsn = some 1 ∧
      (s.probe 0).begin = 1 :=
  ⟨_, rfl, rfl, rfl, rfl⟩

end PreemptDB
