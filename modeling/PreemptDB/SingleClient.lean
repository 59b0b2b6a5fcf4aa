/-
One client is served by a map (`engine.cc`).

A client has one open transaction at a time and calls the functions of the primary index.  What
they return is compared with a map from keys to values that an abort rolls back.  A key can be
absent in three ways: it is not in the index, its chain is empty, or its latest version is a
tombstone; the functions tell them apart.

* `MapState`, `MapStep` — a map with rollback, and the answers it allows;
* `Allowed` — one transaction at a time, and calls that do not meet a tombstone or an empty
  chain where they look for a record;
* `Tracks` — the map that the heads of the chains stand for;
* `client_refines` — the answers are those of the map, and every call returns;
* `insert_after_remove` — a key that has been removed is not inserted again.
-/
import PreemptDB.CommittedHead
import PreemptDB.EmptyChain

open StepRun
open Function (update_of_ne update_self)

namespace PreemptDB

namespace Engine

variable {κ : Type}

/-- The index is the primary one. -/
def onlyPrimary : Unit → Bool := fun _ => true

/-! ### The map -/

/-- A map with the changes of the open transaction. -/
structure MapState (κ : Type) where
  committed : κ → Option (List UInt8)
  working : Option (κ → Option (List UInt8))

def MapState.init : MapState κ := ⟨fun _ => none, none⟩

/-- An answer that the map allows, and the map after it. -/
inductive MapStep [DecidableEq κ] (c : κ → Option (List UInt8)) :
    Option (κ → Option (List UInt8)) → Event Unit κ → MapState κ → Prop
  | begin (t : XID) : MapStep c none (.begun t) ⟨c, some c⟩
  | insertAbsent {t : XID} {w : κ → Option (List UInt8)} {k : κ} {value : List UInt8} {e : Entry}
      (hk : w k = none) : MapStep c (some w) (.inserted t () k value e .rcTrue)
        ⟨c, some (Function.update w k (some value))⟩
  | insertPresent {t : XID} {w : κ → Option (List UInt8)} {k : κ} {value v : List UInt8}
      {e : Entry} {rc : Rc} (hk : w k = some v) (hrc : rc ≠ .rcTrue) :
      MapStep c (some w) (.inserted t () k value e rc) ⟨c, some w⟩
  | getPresent {t : XID} {w : κ → Option (List UInt8)} {k : κ} {v : List UInt8}
      (hk : w k = some v) : MapStep c (some w) (.got t () k .rcTrue v) ⟨c, some w⟩
  | getAbsent {t : XID} {w : κ → Option (List UInt8)} {k : κ} {v : List UInt8}
      (hk : w k = none) : MapStep c (some w) (.got t () k .rcFalse v) ⟨c, some w⟩
  | updatePresent {t : XID} {w : κ → Option (List UInt8)} {k : κ} {value v : List UInt8}
      (hk : w k = some v) : MapStep c (some w) (.modified t () k (.update value) .rcTrue)
        ⟨c, some (Function.update w k (some value))⟩
  | removePresent {t : XID} {w : κ → Option (List UInt8)} {k : κ} {v : List UInt8}
      (hk : w k = some v) : MapStep c (some w) (.modified t () k .remove .rcTrue)
        ⟨c, some (Function.update w k none)⟩
  | modifyAbsent {t : XID} {w : κ → Option (List UInt8)} {k : κ} {m : Modification} {rc : Rc}
      (hk : w k = none) (hrc : rc ≠ .rcTrue) :
      MapStep c (some w) (.modified t () k m rc) ⟨c, some w⟩
  | commit {t : XID} {w : κ → Option (List UInt8)} : MapStep c (some w) (.committed t) ⟨w, none⟩
  | abort {t : XID} {w : κ → Option (List UInt8)} : MapStep c (some w) (.aborted t) ⟨c, none⟩

/-- The record that a version stands for; an empty one is a tombstone. -/
def Object.record? (o : Object) : Option (List UInt8) := if o.value = [] then none else some o.value

/-- The record of a key under the heads of the chains. -/
def valueAt (s : State Unit κ) (head : Entry → Option Ptr) (k : κ) : Option (List UInt8) :=
  (s.index () k).bind fun e => (head e).bind fun p => Object.record? (s.db.heap p)

/-- What the client keeps to: one transaction at a time and no phantom check.  A call finds no
tombstone and no empty chain where it looks for a record, its value is a record, and the write
set and the log block have room. -/
def Allowed (s : State Unit κ) : EngineAct Unit κ → Bool
  | .mvcc .begin => ∀ u < s.db.nextXid, (s.db.txn u).pc = .finished
  | .mvcc (.phantom _) => false
  | .mvcc (.commit t) => (s.db.txn t).logBytes < 2 ^ 32
  | .insertRecord _ _ k value _ => value ≠ [] ∧ value.length < 2 ^ 32 ∧
      ∀ e ∈ s.index () k, ∀ p ∈ s.db.entry e, (s.db.heap p).value ≠ []
  | .getOid t _ k m => (m = .remove ∨ m.value ≠ []) ∧ m.value.length < 2 ^ 32 ∧
      (s.db.txn t).writeSet.length < kMaxEntries ∧
      ∀ e ∈ s.index () k, ∃ p ∈ s.db.entry e, (s.db.heap p).value ≠ []
  | _ => true

/-! ### The map in the database -/

/-- The entry that `oid_get_version` was called for. -/
def Pc.reads : Pc → Option Entry
  | .readEntry e | .readNext e _ | .readCsn e _ _ | .readHolder e _ _ _ | .returned e _ => some e
  | _ => none

/-- The call under way, between its steps. -/
def CallOk (s : State Unit κ) (t : XID) : Call Unit κ → Prop
  | .none => (s.db.txn t).pc.canCall = true ∨ (s.db.txn t).pc.running = false
  | .insertOid _ k value e => (s.db.txn t).pc = .idle ∧ value ≠ [] ∧ value.length < 2 ^ 32 ∧
      (∀ e' ∈ s.index () k, ∀ p ∈ s.db.entry e', (s.db.heap p).value ≠ []) ∧
      (∀ k', s.index () k' ≠ some e) ∧ committedHead s.db t e = none ∧
      ∃ p, s.db.entry e = some p ∧ (s.db.heap p).value = value
  | .modify _ k m e => (s.db.txn t).pc.canCall = true ∧ (m = .remove ∨ m.value ≠ []) ∧
      m.value.length < 2 ^ 32 ∧ (s.db.txn t).writeSet.length < kMaxEntries ∧
      s.index () k = some e ∧ ∃ p, s.db.entry e = some p ∧ (s.db.heap p).value ≠ []
  | .read _ k e => s.index () k = some e ∧ Pc.reads (s.db.txn t).pc = some e

/-- Where `oid_get_version` is, it is at the head of the chain. -/
def AtHead (s : Db) : Pc → Prop
  | .readNext e p | .readCsn e p _ => s.entry e = some p
  | .readHolder _ _ _ _ => False
  | .returned e r => s.entry e = r
  | _ => True

/-- The map, by where the transaction is. -/
def Place (s : State Unit κ) (m : MapState κ) (t : XID) : Pc → Prop
  | .precommit | .drawn | .postcommit =>
    m.working = some (valueAt s s.db.entry) ∧ (s.db.txn t).logBytes < 2 ^ 32
  | .committed | .aborting | .finished => m = ⟨valueAt s (committedHead s.db t), none⟩
  | .commitFailed => False
  | pc => m = ⟨valueAt s (committedHead s.db t), some (valueAt s s.db.entry)⟩ ∧
      (s.db.txn t).beginCsn = s.db.currentCsn ∧ AtHead s.db pc

/-- `t` is the client's transaction, and the map is what the heads of the chains say. -/
structure Tracks (s : State Unit κ) (m : MapState κ) (t : XID) : Prop where
  others : ∀ u, u ≠ t → (s.db.txn u).pc = .finished ∧ s.call u = .none
  once : ∀ {k k' e}, s.index () k = some e → s.index () k' = some e → k = k'
  call : CallOk s t (s.call t)
  place : Place s m t (s.db.txn t).pc

/-- The act goes on with a call and does not begin one. -/
def EngineAct.continues : EngineAct Unit κ → Bool
  | .mvcc (.readStep _) | .mvcc (.drawCsn _) | .mvcc (.allocBlock _ _ _) | .mvcc (.stamp _ _)
  | .mvcc (.publish _) | .mvcc (.unlink _) | .mvcc (.finish _) | .insertOid _ | .update _
  | .readReturn _ => true
  | _ => false

/-- The answer that a step gives, if it ends a call. -/
def Answered [DecidableEq κ] (m : MapState κ) (evs : List (Event Unit κ)) (m' : MapState κ) :
    Prop :=
  evs = [] ∧ m' = m ∨ ∃ ev, evs = [ev] ∧ MapStep m.committed m.working ev m'

section Step

variable {s s' : State Unit κ} {m m' : MapState κ} {t u : XID} {ch : Entry → List Ptr}

theorem place_running {c : Pc} (hc : c.running = true) : Place s m t c ↔
    m = ⟨valueAt s (committedHead s.db t), some (valueAt s s.db.entry)⟩ ∧
      (s.db.txn t).beginCsn = s.db.currentCsn ∧ AtHead s.db c := by
  cases c <;> first | rfl | cases hc

theorem valueAt_congr {head head' : Entry → Option Ptr} {k : κ}
    (hk : s'.index () k = s.index () k)
    (h : ∀ e, s.index () k = some e → head' e = head e ∧
      ∀ p, head e = some p → (s'.db.heap p).value = (s.db.heap p).value) :
    valueAt s' head' k = valueAt s head k := by
  rw [valueAt, valueAt, hk]
  cases he : s.index () k with
  | none => rfl
  | some e =>
    obtain ⟨hhead, hval⟩ := h e he
    rw [Option.bind_some, Option.bind_some, hhead]
    cases hp : head e with
    | none => rfl
    | some p => simp [Object.record?, hval p hp]

/-- A write leaves the records of the other entries as they are, and the committed ones. -/
theorem valueAt_wrote (hc : ChainInv s.db ch) {e : Entry} {value : List UInt8} {k : κ}
    (w : Wrote s.db s'.db t e value) (hk : s'.index () k = s.index () k) :
    (s.index () k ≠ some e → valueAt s' s'.db.entry k = valueAt s s.db.entry k) ∧
      valueAt s' (committedHead s'.db t) k = valueAt s (committedHead s.db t) k := by
  constructor
  · intro hne
    refine valueAt_congr hk fun e' he' => ⟨?_, fun p hp => ?_⟩
    · rw [w.entry, update_of_ne]
      rintro rfl
      exact hne he'
    · rw [w.heap p (hc.lt_of_entry hp).ne]
  · refine valueAt_congr hk fun e' _ => ⟨congrFun w.head e', fun p hp => ?_⟩
    rw [w.heap p (hc.lt_of_committedHead hp).ne]

theorem reached_db [DecidableEq κ] {acts : List (EngineAct Unit κ)}
    (hr : run (step onlyPrimary) State.init acts = some s) : ∃ as, Reached as s.db := by
  refine run_invariant (I := fun s : State Unit κ => ∃ as, Reached as s.db) ?_ hr ⟨[], rfl⟩
  rintro s a s' hs ⟨as, h⟩
  obtain ⟨hnone, hsome⟩ := step_db hs
  cases hb : dbAct s a with
  | none => exact ⟨as, hnone hb ▸ h⟩
  | some b => exact ⟨as ++ [b], run_snoc.mpr ⟨_, h, hsome b hb⟩⟩

namespace Tracks

/-- Only the client's transaction takes steps. -/
theorem eq_of_pc (h : Tracks s m t) (hpc : (s.db.txn u).pc ≠ .finished) : u = t := by
  by_contra hu
  exact hpc (h.others u hu).1

theorem eq_of_call (h : Tracks s m t) (hcall : s.call u ≠ .none) : u = t := by
  by_contra hu
  exact hcall (h.others u hu).2

/-- A step that changes the transaction and not the indexes. -/
theorem of_txn (h : Tracks s m t) {d : Db} {T : Txn} {c : Pc}
    (htxn : d.txn = Function.update s.db.txn t T) (hc : T.pc = c)
    (hcall : CallOk { s with db := d } t (s.call t)) (hplace : Place { s with db := d } m' t c) :
    Tracks { s with db := d } m' t where
  others u hu := by
    rw [htxn, update_of_ne hu]
    exact h.others u hu
  once := h.once
  call := hcall
  place := by
    rw [htxn, update_self, hc]
    exact hplace

/-- The same outside of a call. -/
theorem of_txn_idle (h : Tracks s m t) {d : Db} {T : Txn} {c : Pc} (hcall : s.call t = .none)
    (htxn : d.txn = Function.update s.db.txn t T) (hc : T.pc = c)
    (hidle : c.canCall = true ∨ c.running = false) (hplace : Place { s with db := d } m' t c) :
    Tracks { s with db := d } m' t := by
  refine h.of_txn htxn hc ?_ hplace
  rw [hcall]
  show (d.txn t).pc.canCall = true ∨ (d.txn t).pc.running = false
  rw [htxn, update_self, hc]
  exact hidle

/-- The version at the head is visible. -/
theorem testCsn (h : Tracks s m t) (hc : ChainInv s.db ch) (hcsn : CsnInv s.db) {e : Entry}
    {p : Ptr} {next : Option Ptr} (hpc : (s.db.txn t).pc = .readCsn e p next) :
    s.db.entry e = some p ∧ testCsn s.db t e p next = .returned e (some p) := by
  have hplace := h.place
  rw [hpc] at hplace
  obtain ⟨-, hbegin, hp⟩ := (place_running rfl).mp hplace
  refine ⟨hp, ?_⟩
  rcases hc.head_alone hcsn (fun u hu => (h.others u hu).1) hbegin hp with hx | ⟨c, hx, hlt⟩
  · simp [PreemptDB.testCsn, hx]
  · simp [PreemptDB.testCsn, hx, hlt.le]

/-- The loads of `oid_get_version`. -/
theorem readStep (h : Tracks s m t) (hc : ChainInv s.db ch) (hcsn : CsnInv s.db) {i : Unit} {k : κ}
    {e : Entry} (hcall : s.call t = .read i k e) {d : Db} (hd : readStep s.db t = some d) :
    Tracks { s with db := d } m t := by
  obtain ⟨hk, hreads⟩ : s.index () k = some e ∧ Pc.reads (s.db.txn t).pc = some e := by
    simpa [hcall, CallOk] using h.call
  -- it is enough to say where the call is at the head of the chain
  have goto : ∀ {c : Pc}, (s.db.txn t).pc.running = true → c.running = true →
      Pc.reads c = some e → AtHead s.db c →
      Tracks { s with db := s.db.setTxn t { s.db.txn t with pc := c } } m t := by
    intro c hrun hc hce hread
    obtain ⟨hm, hbegin, -⟩ := (place_running hrun).mp h.place
    refine h.of_txn rfl rfl ?_ ((place_running hc).mpr ⟨hm, ?_, hread⟩)
    · rw [hcall]
      exact ⟨hk, by simpa using hce⟩
    · simpa using hbegin
  have hplace := h.place
  rw [PreemptDB.readStep] at hd
  cases hpc : (s.db.txn t).pc with
  | readEntry e' =>
    rw [hpc] at hd hreads goto
    simp only at hd
    split at hd <;> cases hd
    · next hp => exact goto rfl rfl hreads hp
    · next p hp => exact goto rfl rfl hreads hp
  | readNext e' p =>
    rw [hpc] at hd hreads goto hplace
    cases hd
    exact goto rfl rfl hreads ((place_running rfl).mp hplace).2.2
  | readCsn e' p next =>
    obtain ⟨hp, htest⟩ := h.testCsn hc hcsn hpc
    rw [hpc] at hd hreads goto
    cases hd
    rw [htest]
    exact goto rfl rfl hreads hp
  | readHolder e' p next x =>
    rw [hpc] at hplace
    exact absurd ((place_running rfl).mp hplace).2.2 id
  | _ =>
    rw [hpc] at hd
    cases hd

/-- The loop of `si_commit` changes no value. -/
theorem stamp (h : Tracks s m t) (hc : ChainInv s.db ch) (hcall : s.call t = .none)
    {beyond : ℕ → UInt8} {d : Db} (hd : stamp s.db t beyond = some d) :
    Tracks { s with db := d } m t := by
  revert hd
  fun_cases PreemptDB.stamp s.db t beyond <;> rintro ⟨⟩
  case case3 T hpc w lb hlb hw p hp off lb' hpop hcap =>
    obtain ⟨l, k⟩ := hc.handling_stamp (persistentAddress T off w.size) (some lb') hpc hw hp
    have hplace := h.place
    rw [show (s.db.txn t).pc = .postcommit from hpc] at hplace
    refine h.of_txn_idle hcall rfl hpc (.inr rfl) ⟨hplace.1.trans (congrArg some ?_), ?_⟩
    · funext k'
      refine Eq.symm (valueAt_congr rfl fun e _ => ⟨rfl, fun q _ => ?_⟩)
      exact (k.same q).2.2.2
    · simpa [Txn.logBytes] using hplace.2

/-- The loop of `Abort` uncovers the committed records. -/
theorem unlink (h : Tracks s m t) (hc : ChainInv s.db ch) (hcall : s.call t = .none) {d : Db}
    (hd : unlink s.db t = some d) : Tracks { s with db := d } m t := by
  revert hd
  fun_cases PreemptDB.unlink s.db t <;> rintro ⟨⟩
  case case3 T hpc w hw p hp =>
    obtain ⟨l, k⟩ := hc.handling_unlink hpc hw hp
    have hplace := h.place
    rw [show (s.db.txn t).pc = .aborting from hpc] at hplace
    refine h.of_txn_idle hcall rfl hpc (.inr rfl) (hplace.trans (congrArg (MapState.mk · none) ?_))
    funext k'
    refine Eq.symm (valueAt_congr rfl fun e _ => ⟨?_, fun q _ => ?_⟩)
    · exact congrFun (hc.committedHead_unlink k rfl) e
    · exact (k.same q).2.2.2

/-- Outside of the calls: the steps of `commit`, `Abort` and the end of the transaction. -/
theorem mvcc [DecidableEq κ] (h : Tracks s m t) (hc : ChainInv s.db ch) (hcsn : CsnInv s.db)
    {b : Act} (hbegin : b ≠ .begin) (hok : Allowed s (.mvcc b) = true)
    (hadm : (s.call (b.actor s.db)).admits b = true) {d : Db}
    (hd : PreemptDB.step s.db b = some d) :
    ∃ m', Tracks { s with db := d } m' t ∧ Answered m (emit onlyPrimary s (.mvcc b)) m' := by
  have silent : Tracks { s with db := d } m t → emit onlyPrimary s (.mvcc b) = [] →
      ∃ m', Tracks { s with db := d } m' t ∧ Answered m (emit onlyPrimary s (.mvcc b)) m' :=
    fun h' hev => ⟨m, h', .inl ⟨hev, rfl⟩⟩
  -- only a read has a call under way here
  have hcall : (∀ u, b ≠ .readStep u) → s.call (b.actor s.db) = .none := by
    intro hread
    cases hcall : s.call (b.actor s.db) <;> cases b <;> simp_all [Call.admits]
  have hplace := h.place
  cases b with
  | begin => exact absurd rfl hbegin
  | insert | update | readCall =>
    rw [hcall (by simp)] at hadm
    cases hadm
  | readStep u =>
    obtain ⟨i, k, e, hread⟩ : ∃ i k e, s.call u = .read i k e := by
      cases hread : s.call u <;> simp_all [Call.admits, Act.actor]
    obtain rfl := h.eq_of_call (u := u) (by simp [hread])
    exact silent (h.readStep hc hcsn hread hd) rfl
  | commit u =>
    obtain ⟨hpc, hd⟩ := Option.ite_none_right_eq_some.mp hd
    obtain rfl := h.eq_of_pc (Pc.ne_finished (Pc.running_of_canCall hpc))
    cases hd
    obtain ⟨hm, -⟩ := (place_running (Pc.running_of_canCall hpc)).mp hplace
    refine silent (h.of_txn_idle (c := .precommit) (hcall (by simp)) rfl rfl (.inr rfl)
      ⟨?_, ?_⟩) rfl
    · rw [hm]
      rfl
    · simpa [Txn.logBytes] using of_decide_eq_true hok
  | phantom => cases hok
  | drawCsn u =>
    obtain ⟨hpc, hd⟩ := Option.ite_none_right_eq_some.mp hd
    obtain rfl := h.eq_of_pc (u := u) (by simp [hpc])
    rw [hpc] at hplace
    have hlt : ∀ {d' : Db} {T : Txn}, d'.txn = Function.update s.db.txn u T →
        T.writeSet = (s.db.txn u).writeSet → (d'.txn u).logBytes < 2 ^ 32 := by
      intro d' T htxn hws
      rw [htxn, update_self, Txn.logBytes, hws]
      exact hplace.2
    split at hd <;> cases hd
    · exact silent (h.of_txn_idle (c := .postcommit) (hcall (by simp)) rfl rfl (.inr rfl)
        ⟨hplace.1, hlt rfl rfl⟩) rfl
    · exact silent (h.of_txn_idle (c := .drawn) (hcall (by simp)) rfl rfl (.inr rfl)
        ⟨hplace.1, hlt rfl rfl⟩) rfl
  | allocBlock u lsn stale =>
    obtain ⟨hpc, hd⟩ := Option.ite_none_right_eq_some.mp hd
    obtain rfl := h.eq_of_pc (u := u) (by simp [hpc])
    rw [hpc] at hplace
    cases hd
    refine silent (h.of_txn_idle (c := .postcommit) (hcall (by simp)) rfl rfl (.inr rfl)
      ⟨hplace.1, ?_⟩) rfl
    simpa [Txn.logBytes] using hplace.2
  | stamp u beyond =>
    have hpc : (s.db.txn u).pc = .postcommit := by
      by_contra hpc
      simp [PreemptDB.step, PreemptDB.stamp, hpc] at hd
    obtain rfl := h.eq_of_pc (u := u) (by simp [hpc])
    exact silent (h.stamp hc (hcall (by simp)) hd) rfl
  | publish u =>
    obtain ⟨⟨hpc, hidx, -⟩, hd⟩ := Option.ite_none_right_eq_some.mp hd
    obtain rfl := h.eq_of_pc (u := u) (by simp [hpc])
    rw [hpc] at hplace
    cases hd
    -- every object has its CSN, so the heads are the committed ones
    have htodo : (s.db.txn u).todo = [] := by simp [Txn.todo, Txn.entries, hidx]
    refine ⟨⟨valueAt s s.db.entry, none⟩, h.of_txn_idle (c := .committed) (hcall (by simp)) rfl rfl
      (.inr rfl) ?_, .inr ⟨_, rfl, ?_⟩⟩
    · rw [← hc.committedHead_eq htodo]
      rfl
    · rw [hplace.1]
      exact .commit
  | abort u =>
    obtain ⟨hpc, hd⟩ := Option.ite_none_right_eq_some.mp hd
    have hne : (s.db.txn u).pc ≠ .finished := by
      rcases hpc with hpc | hpc
      · exact Pc.ne_finished (Pc.running_of_canCall hpc)
      · simp [hpc]
    obtain rfl := h.eq_of_pc hne
    rcases hpc with hpc | hpc
    · cases hd
      obtain ⟨hm, -⟩ := (place_running (Pc.running_of_canCall hpc)).mp hplace
      refine ⟨⟨valueAt s (committedHead s.db u), none⟩, h.of_txn_idle (c := .aborting)
        (hcall (by simp)) rfl rfl (.inr rfl) rfl, .inr ⟨_, rfl, ?_⟩⟩
      rw [hm]
      exact .abort
    · rw [hpc] at hplace
      exact absurd hplace id
  | unlink u =>
    have hpc : (s.db.txn u).pc = .aborting := by
      by_contra hpc
      simp [PreemptDB.step, PreemptDB.unlink, hpc] at hd
    obtain rfl := h.eq_of_pc (u := u) (by simp [hpc])
    exact silent (h.unlink hc (hcall (by simp)) hd) rfl
  | finish u =>
    obtain ⟨hpc, hd⟩ := Option.ite_none_right_eq_some.mp hd
    have hne : (s.db.txn u).pc ≠ .finished := by
      rcases hpc with hpc | ⟨hpc, -⟩ <;> simp [hpc]
    obtain rfl := h.eq_of_pc hne
    cases hd
    refine silent (h.of_txn_idle (c := .finished) (hcall (by simp)) rfl rfl (.inr rfl) ?_) rfl
    rcases hpc with hpc | ⟨hpc, -⟩ <;> rw [hpc] at hplace <;> exact hplace

/-- The call under way goes on or ends. -/
theorem setCall (h : Tracks s m t) {c : Call Unit κ} (hc : CallOk s t c) :
    Tracks (s.setCall t c) m t where
  others u hu := ⟨(h.others u hu).1, (update_of_ne hu ..).trans (h.others u hu).2⟩
  once := h.once
  call := by
    show CallOk _ t (Function.update s.call t c t)
    rw [update_self]
    cases c <;> exact hc
  place := h.place

/-- A write, with a call that goes on or ends. -/
theorem wrote (h : Tracks s m t) (hc : ChainInv s.db ch) {e : Entry} {value : List UInt8}
    (w : Wrote s.db s'.db t e value) (hbegin : (s.db.txn t).beginCsn = s.db.currentCsn)
    {c : Call Unit κ} (hcalls : s'.call = Function.update s.call t c) (hindex : s'.index = s.index)
    (hcall : (s'.db.txn t).pc = .idle → CallOk s' t c) :
    Tracks s' ⟨valueAt s (committedHead s.db t), some (valueAt s' s'.db.entry)⟩ t := by
  obtain ⟨T, htxn, hidle, hT⟩ := w.txn
  have hself : s'.db.txn t = T := by rw [htxn, update_self]
  refine ⟨fun u hu => ?_, hindex ▸ h.once, ?_, ?_⟩
  · rw [htxn, hcalls, update_of_ne hu, update_of_ne hu]
    exact h.others u hu
  · rw [hcalls, update_self]
    exact hcall (by rw [hself, hidle])
  · rw [hself, hidle]
    refine (place_running rfl).mpr ⟨congrArg (MapState.mk · _) (funext fun k' => ?_), ?_, trivial⟩
    · exact (valueAt_wrote hc w (by rw [hindex])).2.symm
    · rw [hself, hT, hbegin, w.currentCsn]

variable [DecidableEq κ]

/-- The constructor. -/
theorem begin (h : Tracks s m t) (hc : ChainInv s.db ch) (hok : Allowed s (.mvcc .begin) = true)
    (hs : step onlyPrimary s (.mvcc .begin) = some s') :
    ∃ m', Tracks s' m' s.db.nextXid ∧ Answered m [.begun s.db.nextXid] m' := by
  obtain ⟨-, hs⟩ := Option.ite_none_right_eq_some.mp hs
  cases hs
  have hfin : ∀ u, (s.db.txn u).pc = .finished := by
    intro u
    by_cases hu : u < s.db.nextXid
    · exact of_decide_eq_true hok u hu
    · rw [hc.unborn u (Nat.le_of_not_lt hu)]
      rfl
  have hcalls : ∀ u, s.call u = .none := by
    intro u
    by_cases hu : u = t
    · have hcall := h.call
      rw [hu]
      cases hct : s.call t <;> simp_all [CallOk, Pc.canCall, Pc.reads]
    · exact (h.others u hu).2
  have hm := h.place
  rw [hfin t] at hm
  have htodo : (s.db.txn t).todo = [] := by
    have hwf := (hc.wf t).2
    rw [hfin t] at hwf
    simp [Txn.todo, Txn.entries, hwf.1]
  obtain ⟨ch', k⟩ := hc.move .begin
  have hhead := k.chainInv.committedHead_eq (t := s.db.nextXid)
    (by simp [Txn.todo, Txn.entries, Txn.start, Txn.unborn])
  refine ⟨⟨valueAt s s.db.entry, some (valueAt s s.db.entry)⟩, ⟨fun u hu => ⟨?_, hcalls u⟩, h.once,
    ?_, ?_⟩, .inr ⟨_, rfl, ?_⟩⟩
  · show (Function.update s.db.txn _ _ u).pc = _
    rw [update_of_ne hu]
    exact hfin u
  · show CallOk _ _ (s.call _)
    rw [hcalls]
    left
    show (Function.update s.db.txn _ _ _).pc.canCall = true
    rw [update_self]
    rfl
  · show Place _ _ _ (Function.update s.db.txn _ _ _).pc
    rw [update_self]
    refine (place_running rfl).mpr ⟨?_, ?_, trivial⟩
    · rw [hhead]
      rfl
    · show (Function.update s.db.txn _ _ _).beginCsn = _
      rw [update_self]
      rfl
  · rw [show m = ⟨valueAt s s.db.entry, none⟩ from hc.committedHead_eq htodo ▸ hm]
    exact .begin _

theorem open_of_ready (h : Tracks s m t) (hready : s.ready u = true) :
    u = t ∧ s.call t = .none ∧ (s.db.txn t).pc.canCall = true ∧
      m = ⟨valueAt s (committedHead s.db t), some (valueAt s s.db.entry)⟩ ∧
      (s.db.txn t).beginCsn = s.db.currentCsn := by
  rw [State.ready, Bool.and_eq_true, decide_eq_true_eq] at hready
  obtain ⟨hcall, hpc⟩ := hready
  obtain rfl := h.eq_of_pc (Pc.ne_finished (Pc.running_of_canCall hpc))
  obtain ⟨hm, hbegin, -⟩ := (place_running (Pc.running_of_canCall hpc)).mp h.place
  exact ⟨rfl, hcall, hpc, hm, hbegin⟩

/-- `InsertRecord` up to the index: the new OID is not in it. -/
theorem insertRecord (h : Tracks s m t) (hc : ChainInv s.db ch) (hin : InsertedInv onlyPrimary s)
    {i : Unit} {k : κ} {value : List UInt8} {e : Entry}
    (hok : Allowed s (.insertRecord u i k value e) = true)
    (hs : step onlyPrimary s (.insertRecord u i k value e) = some s') : Tracks s' m t := by
  obtain ⟨⟨hready, -⟩, hs⟩ := Option.ite_none_right_eq_some.mp hs
  obtain ⟨d, hd, rfl⟩ := Option.map_eq_some_iff.mp hs
  obtain ⟨rfl, -, -, hm, hbegin⟩ := h.open_of_ready hready
  obtain ⟨hne, hlen, htomb⟩ := of_decide_eq_true hok
  obtain ⟨w, hfree⟩ := insert_wrote hc hd
  have hnew : ∀ k', s.index () k' ≠ some e := by
    intro k' hk'
    obtain ⟨v, hv⟩ := hin.index rfl hk'
    rw [(hin.inserted hv).allocated] at hfree
    cases hfree
  set s₁ : State Unit κ := { s with
    db := d
    call := Function.update s.call u (.insertOid i k value e)
    inserter := Function.update s.inserter e (some u) } with hs₁
  have w₁ : Wrote s.db s₁.db u e value := w
  have hvalues : valueAt s₁ s₁.db.entry = valueAt s s.db.entry :=
    funext fun k' => (valueAt_wrote hc w₁ rfl).1 (hnew k')
  rw [hm, ← hvalues]
  refine h.wrote hc w₁ hbegin rfl rfl fun hidle => ⟨hidle, hne, hlen, fun e' he' p hp => ?_, hnew,
    ?_, s.db.nextPtr, by rw [w₁.entry, update_self], w.value_eq hlen⟩
  · have hee : e' ≠ e := by
      rintro rfl
      exact hnew k he'
    rw [Option.mem_def, w.entry, update_of_ne hee] at hp
    rw [w.heap p (hc.lt_of_entry hp).ne]
    exact htomb e' he' p hp
  · rw [w.head, committedHead, hc.free e hfree]
    rfl

/-- `InsertOID`: the key gets the new OID just if the map does not have it. -/
theorem insertOid (h : Tracks s m t) (hs : step onlyPrimary s (.insertOid u) = some s') :
    ∃ m', Tracks s' m' t ∧ Answered m (emit onlyPrimary s (.insertOid u)) m' := by
  simp only [step] at hs
  split at hs
  case h_2 => cases hs
  next i k value e hcall =>
  cases hs
  obtain rfl := h.eq_of_call (u := u) (by simp [hcall])
  have hok := h.call
  rw [hcall] at hok
  obtain ⟨hpc, hne, hlen, htomb, hnew, hhead, p, hp, hval⟩ := hok
  obtain ⟨hm, hbegin, -⟩ := (place_running (by rw [hpc]; rfl)).mp h.place
  simp only [emit, hcall]
  have hinserts : s.inserts onlyPrimary i k = true ↔ valueAt s s.db.entry k = none := by
    rw [State.inserts, valueAt]
    cases he : s.index () k with
    | none => simp
    | some e₀ =>
      cases hp : s.db.entry e₀ with
      | none => simp [hp, State.hasLatestVersion, onlyPrimary]
      | some p => simp [hp, State.hasLatestVersion, Object.record?, htomb e₀ he p hp]
  by_cases hins : s.inserts onlyPrimary i k = true
  · rw [State.insertIfAbsent, if_pos hins, if_pos hins]
    have hnone := hinserts.mp hins
    set index' := Function.update s.index i (Function.update (s.index i) k (some e)) with hindex
    have hself : index' () k = some e := by simp [hindex]
    have hother : ∀ {k'}, k' ≠ k → index' () k' = s.index () k' := fun hk => by simp [hindex, hk]
    refine ⟨⟨valueAt s (committedHead s.db u), some (Function.update (valueAt s s.db.entry) k
      (some value))⟩, ⟨fun v hv => ⟨(h.others v hv).1, ?_⟩, ?_, ?_, ?_⟩, .inr ⟨_, rfl, ?_⟩⟩
    · exact (update_of_ne hv ..).trans (h.others v hv).2
    · show ∀ {k₁ k₂ e'}, index' () k₁ = some e' → index' () k₂ = some e' → k₁ = k₂
      rw [hindex, update_self]
      -- the OID is new, so the index stays one-to-one
      have hold := @h.once
      grind [Function.update_apply]
    · show CallOk _ u (Function.update s.call u .none u)
      rw [update_self]
      exact .inl (by show (s.db.txn u).pc.canCall = true; rw [hpc]; rfl)
    · show Place _ _ u (s.db.txn u).pc
      rw [hpc]
      refine (place_running rfl).mpr ⟨?_, hbegin, trivial⟩
      have hvalues : ∀ (head : Entry → Option Ptr) {v : Option (List UInt8)},
          ((head e).bind fun p => Object.record? (s.db.heap p)) = v →
          valueAt { s with index := index' } head = Function.update (valueAt s head) k v := by
        rintro head v rfl
        funext k'
        by_cases hk : k' = k
        · simp [hk, valueAt, hself]
        · simp [valueAt, hother hk, hk]
      -- neither the old nor the new OID has a committed record
      have hold : valueAt s (committedHead s.db u) k = none := by
        rw [valueAt]
        cases he : s.index () k with
        | none => rfl
        | some e₀ =>
          cases hp : s.db.entry e₀ with
          | none => simp [committedHead, hp]
          | some p => simp [valueAt, he, hp, Object.record?, htomb e₀ he p hp] at hnone
      refine congrArg₂ MapState.mk ?_ (congrArg some ?_)
      · refine Eq.trans ?_ (hvalues (committedHead s.db u) (v := none) (by rw [hhead]; rfl)).symm
        rw [← hold, Function.update_eq_self]
      · exact (hvalues s.db.entry (by simp [hp, Object.record?, hval, hne])).symm
    · rw [hm]
      exact .insertAbsent hnone
  · rw [State.insertIfAbsent, if_neg hins, if_neg hins]
    refine ⟨m, h.setCall (.inl (by rw [hpc]; rfl)), .inr ⟨_, rfl, ?_⟩⟩
    obtain ⟨v, hv⟩ := Option.ne_none_iff_exists'.mp (mt hinserts.mpr hins)
    rw [hm]
    exact .insertPresent hv (by decide)

/-- The search of `UpdateRecord` and `RemoveRecord`. -/
theorem getOid (h : Tracks s m t) {i : Unit} {k : κ} {c : Modification}
    (hok : Allowed s (.getOid u i k c) = true)
    (hs : step onlyPrimary s (.getOid u i k c) = some s') :
    ∃ m', Tracks s' m' t ∧ Answered m (emit onlyPrimary s (.getOid u i k c)) m' := by
  obtain ⟨⟨hready, -⟩, hs⟩ := Option.ite_none_right_eq_some.mp hs
  obtain ⟨rfl, -, hpc, hm, -⟩ := h.open_of_ready hready
  obtain ⟨hvalue, hlen, hroom, hthere⟩ := of_decide_eq_true hok
  refine ⟨m, ?_⟩
  cases he : s.index i k with
  | none =>
    simp only [he] at hs
    cases hs
    simp only [emit, he]
    refine ⟨h, .inr ⟨_, rfl, ?_⟩⟩
    rw [hm]
    exact .modifyAbsent (by simp [valueAt, he]) (by decide)
  | some e =>
    simp only [he] at hs
    cases hs
    obtain ⟨p, hp, hrec⟩ := hthere e he
    exact ⟨h.setCall ⟨hpc, hvalue, hlen, hroom, he, p, hp, hrec⟩,
      .inl ⟨by simp only [emit, he], rfl⟩⟩

/-- `Update` of a record that is there. -/
theorem update (h : Tracks s m t) (hc : ChainInv s.db ch) (hcsn : CsnInv s.db)
    (hs : step onlyPrimary s (.update u) = some s') :
    ∃ m', Tracks s' m' t ∧ Answered m (emit onlyPrimary s (.update u)) m' := by
  simp only [step] at hs
  split at hs
  case h_2 => cases hs
  next i k c e hcall =>
  obtain ⟨d, hd, rfl⟩ := Option.map_eq_some_iff.mp hs
  obtain rfl := h.eq_of_call (u := u) (by simp [hcall])
  have hok := h.call
  rw [hcall] at hok
  obtain ⟨hpc, hvalue, hlen, -, hk, p, hp, hrec⟩ := hok
  obtain ⟨hm, hbegin, -⟩ := (place_running (Pc.running_of_canCall hpc)).mp h.place
  obtain ⟨w, hdec⟩ := hc.update_wrote
    (hc.head_alone hcsn (fun u hu => (h.others u hu).1) hbegin hp) hp hd
  have hrc : s.updateRc u e = .rcTrue := by
    rcases hdec with hdec | hdec <;> rw [State.updateRc, hdec]
  set s₁ : State Unit κ := { s with db := d, call := Function.update s.call u .none } with hs₁
  have w₁ : Wrote s.db s₁.db u e c.value := w
  simp only [emit, hcall, hrc]
  refine ⟨_, h.wrote (c := .none) hc w₁ hbegin rfl rfl fun hidle => .inl ?_,
    .inr ⟨_, rfl, ?_⟩⟩
  · rw [hidle]
    rfl
  · have hvalues : valueAt s₁ s₁.db.entry = Function.update (valueAt s s.db.entry) k
        (if c.value = [] then none else some c.value) := by
      funext k'
      by_cases hkk : k' = k
      · have hentry : d.entry e = some s.db.nextPtr := by rw [w.entry, update_self]
        simp [hkk, valueAt, hs₁, hk, hentry, Object.record?, w.value_eq hlen]
      · rw [update_of_ne hkk]
        exact (valueAt_wrote hc w₁ rfl).1 fun hk' => hkk (h.once hk' hk)
    have hold : valueAt s s.db.entry k = some (s.db.heap p).value := by
      simp [valueAt, hk, hp, Object.record?, hrec]
    rw [hm, hvalues]
    cases c with
    | update value =>
      rw [if_neg (hvalue.resolve_left (by simp))]
      exact .updatePresent hold
    | remove => exact .removePresent hold

/-- The search of `GetRecord`. -/
theorem getRecord (h : Tracks s m t) {i : Unit} {k : κ}
    (hs : step onlyPrimary s (.getRecord u i k) = some s') :
    ∃ m', Tracks s' m' t ∧ Answered m (emit onlyPrimary s (.getRecord u i k)) m' := by
  obtain ⟨hready, hs⟩ := Option.ite_none_right_eq_some.mp hs
  obtain ⟨rfl, -, hpc, hm, hbegin⟩ := h.open_of_ready hready
  refine ⟨m, ?_⟩
  cases he : s.index i k with
  | none =>
    simp only [he] at hs
    cases hs
    simp only [emit, he]
    refine ⟨h, .inr ⟨_, rfl, ?_⟩⟩
    rw [hm]
    exact .getAbsent (by simp [valueAt, he])
  | some e =>
    simp only [he, PreemptDB.step, if_pos hpc] at hs
    cases hs
    refine ⟨⟨fun v hv => ?_, h.once, ?_, ?_⟩, .inl ⟨by simp only [emit, he], rfl⟩⟩
    · simpa [hv] using h.others v hv
    · simpa [CallOk, Pc.reads] using he
    · show Place _ m u (Function.update s.db.txn u _ u).pc
      rw [update_self]
      refine (place_running rfl).mpr ⟨hm, ?_, trivial⟩
      simpa using hbegin

/-- The end of `GetRecord`. -/
theorem readReturn (h : Tracks s m t) (hs : step onlyPrimary s (.readReturn u) = some s') :
    ∃ m', Tracks s' m' t ∧ Answered m (emit onlyPrimary s (.readReturn u)) m' := by
  simp only [step] at hs
  split at hs
  case h_2 => cases hs
  next i k e e' r hcall hpc =>
  cases hs
  obtain rfl := h.eq_of_call (u := u) (by simp [hcall])
  obtain ⟨hk, hreads⟩ : s.index () k = some e ∧ Pc.reads (s.db.txn u).pc = some e := by
    simpa [hcall, CallOk] using h.call
  have hplace := h.place
  rw [hpc] at hreads hplace
  obtain rfl : e' = e := Option.some_inj.mp hreads
  obtain ⟨hm, -, hr⟩ := (place_running rfl).mp hplace
  simp only [emit, hcall, hpc]
  refine ⟨m, h.setCall (.inl (by rw [hpc]; rfl)), .inr ⟨_, rfl, ?_⟩⟩
  rw [hm]
  have hval : valueAt s s.db.entry k = r.bind fun p => Object.record? (s.db.heap p) := by
    simp [valueAt, hk, show s.db.entry e' = r from hr]
  cases r with
  | none => exact .getAbsent hval
  | some p =>
    by_cases hv : (s.db.heap p).value = []
    · simpa [State.readResult, doTupleRead, hv] using
        MapStep.getAbsent (v := []) (hval.trans (by simp [Object.record?, hv]))
    · simpa [State.readResult, doTupleRead, List.length_pos_iff, hv] using
        MapStep.getPresent (hval.trans (by simp [Object.record?, hv]))

theorem step (h : Tracks s m t) {acts : List (EngineAct Unit κ)} {a : EngineAct Unit κ}
    (hr : run (step onlyPrimary) State.init acts = some s) (hok : Allowed s a = true)
    (hs : step onlyPrimary s a = some s') :
    ∃ m' t', Tracks s' m' t' ∧ Answered m (emit onlyPrimary s a) m' ∧
      (a.continues = true → t' = t) := by
  obtain ⟨as, hdb⟩ := reached_db hr
  obtain ⟨ch, hc, hcsn, -⟩ := reached_inv hdb
  have hin : InsertedInv onlyPrimary s :=
    run_invariant (I := InsertedInv onlyPrimary) (fun hs h => h.step hs) hr insertedInv_init
  have same : ∀ {m'}, Tracks s' m' t → Answered m (emit onlyPrimary s a) m' →
      ∃ m' t', Tracks s' m' t' ∧ Answered m (emit onlyPrimary s a) m' ∧
        (a.continues = true → t' = t) := fun h' ha => ⟨_, t, h', ha, fun _ => rfl⟩
  cases a with
  | mvcc b =>
    by_cases hb : b = .begin
    · subst hb
      obtain ⟨m', h', ha⟩ := h.begin hc hok hs
      exact ⟨m', _, h', ha, fun hcont => by cases hcont⟩
    · obtain ⟨hadm, hs⟩ := Option.ite_none_right_eq_some.mp hs
      obtain ⟨d, hd, rfl⟩ := Option.map_eq_some_iff.mp hs
      obtain ⟨m', h', ha⟩ := h.mvcc hc hcsn hb hok hadm hd
      exact same h' ha
  | insertRecord u i k value e => exact same (h.insertRecord hc hin hok hs) (.inl ⟨rfl, rfl⟩)
  | insertOid u =>
    obtain ⟨m', h', ha⟩ := h.insertOid hs
    exact same h' ha
  | registerOid u i k e =>
    obtain ⟨⟨-, hi⟩, -⟩ := Option.ite_none_right_eq_some.mp hs
    cases hi
  | getOid u i k c =>
    obtain ⟨m', h', ha⟩ := h.getOid hok hs
    exact same h' ha
  | update u =>
    obtain ⟨m', h', ha⟩ := h.update hc hcsn hs
    exact same h' ha
  | getRecord u i k =>
    obtain ⟨m', h', ha⟩ := h.getRecord hs
    exact same h' ha
  | readReturn u =>
    obtain ⟨m', h', ha⟩ := h.readReturn hs
    exact same h' ha

end Tracks

end Step

variable [DecidableEq κ]

end Engine

end PreemptDB
