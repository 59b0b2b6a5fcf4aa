/-
Phantom protection (`DoNodeRead`, `InsertIfAbsent`, `MasstreeCheckPhantom`).

A transaction that has missed a key or scanned a range remembers the leaves that it
has seen and their versions.  Its own inserts carry the versions forward, and the
commit compares them with the leaves, one after the other, before it draws a CSN.
Between the comparison and the draw another transaction may insert.

* `Index`, `step` — leaves, transactions and their steps;
* `Clean` — an entry that agrees with its leaf has seen no foreign insert;
* `phantom_check` — at the draw, if nobody inserts in between;
* `phantom_at_draw` — a foreign insert between the check and the draw.

`log` is a ghost: the inserts into leaves in their order, with the transaction.
-/
import PreemptDB.ReturnCode
import PreemptDB.StepRun

namespace PreemptDB

open Function StepRun

namespace Phantom

/-- The next access of a transaction. -/
inductive Pc (ν : Type*)
  | idle
  | running
  /-- the search has returned the leaf and its version, after `k` inserts -/
  | found (n : ν) (v k : ℕ)
  /-- masstree has reported the leaf with its old and new version -/
  | inserted (n : ν) (old new : ℕ)
  /-- `MasstreeCheckPhantom` -/
  | checking (todo : Finset ν)
  | ready
  | drawn
  | aborted

/-- A transaction; `since` is the number of inserts before a version of the absent set was
read. -/
structure Txn (ν : Type*) where
  absent : AbsentSet ν
  since : ν → ℕ
  writes : Bool
  beginCsn : ℕ
  endCsn : ℕ
  pc : Pc ν

/-- The leaves and the transactions; `fresh` is a version that has not been used. -/
structure Index (ν τ : Type*) where
  version : ν → ℕ
  fresh : ℕ
  currentCsn : ℕ
  txn : τ → Txn ν
  log : List (ν × τ)

inductive Act (ν τ : Type*)
  | begin (t : τ)
  | write (t : τ)
  | search (t : τ) (n : ν)
  | nodeRead (t : τ)
  | insert (t : τ) (n : ν)
  | bump (t : τ)
  | commit (t : τ)
  | check (t : τ) (n : ν)
  | pass (t : τ)
  | draw (t : τ)

variable {ν τ : Type*}

def Index.init : Index ν τ where
  version _ := 0
  fresh := 1
  currentCsn := 0
  txn _ := ⟨.empty, fun _ => 0, false, 0, 0, .idle⟩
  log := []

section Step

variable [DecidableEq ν] [DecidableEq τ]

def Index.setTxn (s : Index ν τ) (t : τ) (T : Txn ν) : Index ν τ :=
  { s with txn := Function.update s.txn t T }

/-- `DoNodeRead`; a leaf that is already there with another version is left alone, and the
caller gets an abort code. -/
def Txn.doNodeRead (T : Txn ν) (n : ν) (v k : ℕ) : Txn ν :=
  { T with
    absent := (Engine.doNodeRead T.absent n v).2
    since := if n ∈ T.absent.nodes then T.since else Function.update T.since n k
    pc := .running }

/-- The end of `InsertIfAbsent`; the caller gets an abort code if the versions differ. -/
def Txn.insertIfAbsent (T : Txn ν) (n : ν) (old new : ℕ) : Txn ν :=
  if n ∈ T.absent.nodes ∧ T.absent.version n = old then
    { T with
      absent := { T.absent with version := Function.update T.absent.version n new }
      pc := .running }
  else { T with pc := .running }

/-- One access to a leaf, to the absent set or to `current_csn`. -/
def step (s : Index ν τ) : Act ν τ → Option (Index ν τ)
  | .begin t =>
    match (s.txn t).pc with
    | .idle => some (s.setTxn t { s.txn t with beginCsn := s.currentCsn, pc := .running })
    | _ => none
  | .write t =>
    match (s.txn t).pc with
    | .running => some (s.setTxn t { s.txn t with writes := true })
    | _ => none
  | .search t n =>
    match (s.txn t).pc with
    | .running => some (s.setTxn t { s.txn t with pc := .found n (s.version n) s.log.length })
    | _ => none
  | .nodeRead t =>
    match (s.txn t).pc with
    | .found n v k => some (s.setTxn t ((s.txn t).doNodeRead n v k))
    | _ => none
  | .insert t n =>
    match (s.txn t).pc with
    | .running =>
      some ({ s with
        version := Function.update s.version n s.fresh
        fresh := s.fresh + 1
        log := s.log ++ [(n, t)] }.setTxn t
          { s.txn t with pc := .inserted n (s.version n) s.fresh })
    | _ => none
  | .bump t =>
    match (s.txn t).pc with
    | .inserted n old new => some (s.setTxn t ((s.txn t).insertIfAbsent n old new))
    | _ => none
  | .commit t =>
    match (s.txn t).pc with
    | .running => some (s.setTxn t { s.txn t with pc := .checking (s.txn t).absent.nodes })
    | _ => none
  | .check t n =>
    match (s.txn t).pc with
    | .checking todo =>
      if n ∈ todo then
        if s.version n = (s.txn t).absent.version n then
          some (s.setTxn t { s.txn t with pc := .checking (todo.erase n) })
        else some (s.setTxn t { s.txn t with pc := .aborted })
      else none
    | _ => none
  | .pass t =>
    match (s.txn t).pc with
    | .checking todo =>
      if todo = ∅ then some (s.setTxn t { s.txn t with pc := .ready }) else none
    | _ => none
  | .draw t =>
    match (s.txn t).pc with
    | .ready =>
      if (s.txn t).writes then
        some ({ s with currentCsn := s.currentCsn + 1 }.setTxn t
          { s.txn t with endCsn := s.currentCsn, pc := .drawn })
      else some (s.setTxn t { s.txn t with endCsn := (s.txn t).beginCsn, pc := .drawn })
    | _ => none

end Step

/-- Another transaction has inserted into the leaf, after the first `k` inserts. -/
def Changed (s : Index ν τ) (t : τ) (n : ν) (k : ℕ) : Prop :=
  ∃ m u, k ≤ m ∧ s.log[m]? = some (n, u) ∧ u ≠ t

/-- The leaf has been compared, and the CSN has not been drawn. -/
def Pc.passed (n : ν) : Pc ν → Prop
  | .checking todo => n ∉ todo
  | .ready => True
  | _ => False

instance [DecidableEq ν] (n : ν) : ∀ p : Pc ν, Decidable (p.passed n)
  | .checking todo => inferInstanceAs (Decidable (n ∉ todo))
  | .ready => isTrue trivial
  | .idle | .running | .found _ _ _ | .inserted _ _ _ | .drawn | .aborted => isFalse id

/-- Nobody inserts into a leaf that another transaction has compared and relies on. -/
def NoLateInsert (s : Index ν τ) : Act ν τ → Prop
  | .insert u n => ∀ t, t ≠ u → n ∈ (s.txn t).absent.nodes → ¬ (s.txn t).pc.passed n
  | _ => True

instance [DecidableEq ν] [DecidableEq τ] [Fintype τ] (s : Index ν τ) :
    DecidablePred (NoLateInsert s)
  | .insert u n =>
    inferInstanceAs (Decidable (∀ t, t ≠ u → n ∈ (s.txn t).absent.nodes → ¬ (s.txn t).pc.passed n))
  | .begin _ | .write _ | .search _ _ | .nodeRead _ | .bump _ | .commit _ | .check _ _ | .pass _
  | .draw _ => isTrue trivial

section Invariant

variable {s s' : Index ν τ} {t : τ} {T : Txn ν} {n : ν}

/-- What holds at a place. -/
def Pc.Ok (s : Index ν τ) (t : τ) (T : Txn ν) : Pc ν → Prop
  | .found n v k => v < s.fresh ∧ (s.version n = v → ¬ Changed s t n k)
  | .inserted n old new => new < s.fresh ∧
    (n ∈ T.absent.nodes → T.absent.version n = old → s.version n = new →
      ¬ Changed s t n (T.since n))
  | .checking todo => ∀ n ∈ T.absent.nodes, n ∉ todo → ¬ Changed s t n (T.since n)
  | .ready => ∀ n ∈ T.absent.nodes, ¬ Changed s t n (T.since n)
  | _ => True

/-- An entry that agrees with its leaf has seen no foreign insert. -/
structure Clean (s : Index ν τ) (t : τ) (T : Txn ν) : Prop where
  lt : ∀ n ∈ T.absent.nodes, T.absent.version n < s.fresh
  clean : ∀ n ∈ T.absent.nodes, s.version n = T.absent.version n → ¬ Changed s t n (T.since n)
  pc : T.pc.Ok s t T

structure Inv (s : Index ν τ) : Prop where
  version_lt : ∀ n, s.version n < s.fresh
  txn : ∀ t, Clean s t (s.txn t)

theorem inv_init : Inv (Index.init : Index ν τ) := by
  refine ⟨fun _ => Nat.one_pos, fun t => ⟨fun n hn => ?_, fun n hn => ?_, trivial⟩⟩
  · exact absurd hn (Finset.notMem_empty n)
  · exact absurd hn (Finset.notMem_empty n)

/-- The statements about a transaction only look at the leaves and the inserts. -/
theorem Clean.of_eq (h : Clean s t T) (hv : s'.version = s.version) (hf : s'.fresh = s.fresh)
    (hl : s'.log = s.log) : Clean s' t T := by
  have hchanged : ∀ n k, Changed s' t n k ↔ Changed s t n k := fun n k => by
    rw [Changed, Changed, hl]
  refine ⟨fun n hn => hf ▸ h.lt n hn, fun n hn hveq => ?_, ?_⟩
  · rw [hchanged]
    exact h.clean n hn (hv ▸ hveq)
  · have hpc := h.pc
    cases hq : T.pc <;> rw [hq] at hpc <;> simp only [Pc.Ok, hchanged, hv, hf] <;> exact hpc

theorem Clean.setPc (h : Clean s t T) {p : Pc ν} (hp : p.Ok s t { T with pc := p }) :
    Clean s t { T with pc := p } :=
  ⟨h.lt, h.clean, hp⟩

theorem not_changed_length (s : Index ν τ) (t : τ) (n : ν) : ¬ Changed s t n s.log.length := by
  rintro ⟨m, u, hm, hget, -⟩
  rw [List.getElem?_eq_none hm] at hget
  cases hget

/-- An insert of the transaction itself, or into another leaf, is not foreign. -/
theorem Changed.of_append {u : τ} {n' : ν} {k : ℕ} (hlog : s'.log = s.log ++ [(n', u)])
    (hne : n' = n → u = t) (h : Changed s' t n k) : Changed s t n k := by
  obtain ⟨m, w, hm, hget, hw⟩ := h
  refine ⟨m, w, hm, ?_, hw⟩
  rw [hlog] at hget
  rcases Nat.lt_trichotomy m s.log.length with hlt | heq | hgt
  · rwa [List.getElem?_append_left hlt] at hget
  · rw [heq, List.getElem?_concat_length, Option.some_inj] at hget
    cases hget
    exact absurd (hne rfl) hw
  · rw [List.getElem?_eq_none (by rw [List.length_append, List.length_singleton]; omega)] at hget
    cases hget

/-- A step of one transaction that does not touch the leaves. -/
theorem Inv.setTxn [DecidableEq τ] (h : Inv s) (hT : Clean s t T) : Inv (s.setTxn t T) := by
  refine ⟨h.version_lt, fun u => ?_⟩
  by_cases hu : u = t
  · subst hu
    change Clean _ u (Function.update s.txn u T u)
    rw [update_self]
    exact hT.of_eq rfl rfl rfl
  · change Clean _ u (Function.update s.txn t T u)
    rw [update_of_ne hu]
    exact (h.txn u).of_eq rfl rfl rfl

variable [DecidableEq ν]

theorem Clean.doNodeRead (h : Clean s t T) {v k : ℕ} (hpc : T.pc = .found n v k) :
    Clean s t (T.doNodeRead n v k) := by
  have hfound := h.pc
  rw [hpc] at hfound
  obtain ⟨hlt, hclean⟩ := hfound
  rw [Txn.doNodeRead, Engine.doNodeRead_absent]
  split
  · exact h.setPc trivial
  · refine ⟨fun m hm => ?_, fun m hm hveq => ?_, trivial⟩
    · change Function.update T.absent.version n v m < s.fresh
      by_cases hmn : m = n
      · rw [hmn, update_self]
        exact hlt
      · rw [update_of_ne hmn]
        exact h.lt m ((Finset.mem_insert.mp hm).resolve_left hmn)
    · change s.version m = Function.update T.absent.version n v m at hveq
      change ¬ Changed s t m (Function.update T.since n k m)
      by_cases hmn : m = n
      · subst hmn
        rw [update_self] at hveq ⊢
        exact hclean hveq
      · rw [update_of_ne hmn] at hveq ⊢
        exact h.clean m ((Finset.mem_insert.mp hm).resolve_left hmn) hveq

theorem Clean.insertIfAbsent (h : Clean s t T) {old new : ℕ} (hpc : T.pc = .inserted n old new) :
    Clean s t (T.insertIfAbsent n old new) := by
  have hinserted := h.pc
  rw [hpc] at hinserted
  obtain ⟨hlt, hclean⟩ := hinserted
  unfold Txn.insertIfAbsent
  split
  · next hrec =>
    refine ⟨fun m hm => ?_, fun m hm hveq => ?_, trivial⟩
    · change Function.update T.absent.version n new m < s.fresh
      by_cases hmn : m = n
      · rw [hmn, update_self]
        exact hlt
      · rw [update_of_ne hmn]
        exact h.lt m hm
    · change s.version m = Function.update T.absent.version n new m at hveq
      by_cases hmn : m = n
      · subst hmn
        rw [update_self] at hveq
        exact hclean hm hrec.2 hveq
      · rw [update_of_ne hmn] at hveq
        exact h.clean m hm hveq
  · exact h.setPc trivial

/-- A transaction sees a foreign insert, into a leaf that it does not yet rely on. -/
theorem Clean.foreign (h : Clean s t T) {u : τ} {n' : ν}
    (hv : s'.version = Function.update s.version n' s.fresh) (hf : s'.fresh = s.fresh + 1)
    (hl : s'.log = s.log ++ [(n', u)]) (hok : n' ∈ T.absent.nodes → ¬ T.pc.passed n') :
    Clean s' t T := by
  -- the new version differs from all that have been read
  have hother : ∀ {m v}, v < s.fresh → s'.version m = v → n' ≠ m ∧ s.version m = v := by
    intro m v hlt heq
    rw [hv] at heq
    by_cases hm : m = n'
    · rw [hm, update_self] at heq
      omega
    · rw [update_of_ne hm] at heq
      exact ⟨fun h => hm h.symm, heq⟩
  have hold : ∀ {m k}, n' ≠ m → ¬ Changed s t m k → ¬ Changed s' t m k := fun hne hnot hc =>
    hnot (hc.of_append hl fun heq => absurd heq hne)
  refine ⟨fun m hm => hf ▸ (h.lt m hm).trans (Nat.lt_succ_self _), fun m hm heq => ?_, ?_⟩
  · obtain ⟨hne, heq⟩ := hother (h.lt m hm) heq
    exact hold hne (h.clean m hm heq)
  · have hpc := h.pc
    cases hq : T.pc with
    | found m v k =>
      rw [hq] at hpc
      refine ⟨hf ▸ hpc.1.trans (Nat.lt_succ_self _), fun heq => ?_⟩
      obtain ⟨hne, heq⟩ := hother hpc.1 heq
      exact hold hne (hpc.2 heq)
    | inserted m old new =>
      rw [hq] at hpc
      refine ⟨hf ▸ hpc.1.trans (Nat.lt_succ_self _), fun hm ho heq => ?_⟩
      obtain ⟨hne, heq⟩ := hother hpc.1 heq
      exact hold hne (hpc.2 hm ho heq)
    | checking todo =>
      rw [hq] at hpc hok
      intro m hm hm'
      exact hold (fun heq => hok (heq ▸ hm) (heq ▸ hm')) (hpc m hm hm')
    | ready =>
      rw [hq] at hpc hok
      intro m hm
      exact hold (fun heq => hok (heq ▸ hm) trivial) (hpc m hm)
    | _ => trivial

/-- The transaction inserts into a leaf. -/
theorem Clean.insert (h : Clean s t T)
    (hv : s'.version = Function.update s.version n s.fresh) (hf : s'.fresh = s.fresh + 1)
    (hl : s'.log = s.log ++ [(n, t)]) (hpc : T.pc = .running) :
    Clean s' t { T with pc := .inserted n (s.version n) s.fresh } := by
  have hno : T.pc.passed n → False := by
    rw [hpc]
    exact id
  have hforeign := h.foreign hv hf hl fun _ => hno
  refine ⟨hforeign.lt, hforeign.clean, hf ▸ Nat.lt_succ_self _, fun hm hold _ hc => ?_⟩
  exact h.clean n hm hold.symm (hc.of_append hl fun _ => rfl)

variable [DecidableEq τ]

theorem Inv.insert (h : Inv s) (hok : NoLateInsert s (.insert t n))
    (hpc : (s.txn t).pc = .running) :
    Inv ({ s with
      version := Function.update s.version n s.fresh
      fresh := s.fresh + 1
      log := s.log ++ [(n, t)] }.setTxn t
        { s.txn t with pc := .inserted n (s.version n) s.fresh }) := by
  refine ⟨fun m => ?_, fun u => ?_⟩
  · change Function.update s.version n s.fresh m < s.fresh + 1
    by_cases hm : m = n
    · rw [hm, update_self]
      exact Nat.lt_succ_self _
    · rw [update_of_ne hm]
      exact (h.version_lt m).trans (Nat.lt_succ_self _)
  · by_cases hu : u = t
    · subst hu
      change Clean _ u (Function.update s.txn u _ u)
      rw [update_self]
      exact (h.txn u).insert rfl rfl rfl hpc
    · change Clean _ u (Function.update s.txn t _ u)
      rw [update_of_ne hu]
      exact (h.txn u).foreign rfl rfl rfl (hok u hu)

theorem Inv.step (h : Inv s) {a : Act ν τ} (hok : NoLateInsert s a) (hs : step s a = some s') :
    Inv s' := by
  -- a step needs its transaction at one place
  cases a with (rw [Phantom.step] at hs; split at hs; case h_2 => cases hs)
  | begin t =>
    cases hs
    exact h.setTxn ⟨(h.txn t).lt, (h.txn t).clean, trivial⟩
  | write t =>
    rename_i hpc
    cases hs
    refine h.setTxn ⟨(h.txn t).lt, (h.txn t).clean, ?_⟩
    change Pc.Ok s t _ (s.txn t).pc
    rw [hpc]
    trivial
  | search t n =>
    cases hs
    exact h.setTxn ((h.txn t).setPc ⟨h.version_lt n, fun _ => not_changed_length s t n⟩)
  | nodeRead t =>
    rename_i n v k hpc
    cases hs
    exact h.setTxn ((h.txn t).doNodeRead hpc)
  | insert t n =>
    rename_i hpc
    cases hs
    exact h.insert hok hpc
  | bump t =>
    rename_i n old new hpc
    cases hs
    exact h.setTxn ((h.txn t).insertIfAbsent hpc)
  | commit t =>
    cases hs
    exact h.setTxn ((h.txn t).setPc fun n hn hn' => absurd hn hn')
  | check t n =>
    rename_i todo hpc
    obtain ⟨-, hs⟩ := Option.ite_none_right_eq_some.mp hs
    have hchecking := (h.txn t).pc
    rw [hpc] at hchecking
    split at hs
    · next hveq =>
      cases hs
      refine h.setTxn ((h.txn t).setPc fun m hm hm' => ?_)
      by_cases hmn : m = n
      · subst hmn
        exact (h.txn t).clean m hm hveq
      · exact hchecking m hm fun hin => hm' (Finset.mem_erase.mpr ⟨hmn, hin⟩)
    · cases hs
      exact h.setTxn ((h.txn t).setPc trivial)
  | pass t =>
    rename_i todo hpc
    obtain ⟨hempty, hs⟩ := Option.ite_none_right_eq_some.mp hs
    cases hs
    have hchecking := (h.txn t).pc
    rw [hpc] at hchecking
    refine h.setTxn ((h.txn t).setPc fun m hm => hchecking m hm ?_)
    rw [hempty]
    exact Finset.notMem_empty m
  | draw t =>
    have hT := h.txn t
    split at hs
    · cases hs
      have h' : Inv { s with currentCsn := s.currentCsn + 1 } :=
        ⟨h.version_lt, fun u => (h.txn u).of_eq rfl rfl rfl⟩
      exact h'.setTxn ⟨hT.lt, (hT.of_eq rfl rfl rfl).clean, trivial⟩
    · cases hs
      exact h.setTxn ⟨hT.lt, hT.clean, trivial⟩

/-- **Phantom protection at the commit point.**  If nobody inserts into a leaf between the moment
when another transaction has compared it and that transaction's draw of a CSN, then at the draw no
other transaction has inserted into a leaf of the absent set since its version was read. -/
theorem phantom_check {acts : List (Act ν τ)} (hr : run step Index.init acts = some s)
    (hok : Along step NoLateInsert Index.init acts) (hs : step s (.draw t) = some s') :
    ∀ n ∈ (s.txn t).absent.nodes, ¬ Changed s t n ((s.txn t).since n) := by
  have h : Inv s := run_invariant_along (I := Inv)
    (fun hok hs h => h.step hok hs) hok hr inv_init
  have hpc := (h.txn t).pc
  rw [step] at hs
  split at hs
  · next hq =>
    rw [hq] at hpc
    exact hpc
  · cases hs

end Invariant

/-- `true` inserts, then `false` misses a key in the leaf, inserts there and comes to its draw. -/
def ownInsert : List (Act Unit Bool) :=
  [.begin true, .insert true (), .bump true, .begin false, .search false (), .nodeRead false,
    .write false, .insert false (), .bump false, .commit false, .check false (), .pass false]

theorem phantom_check_ownInsert :
    ∃ s s', run step Index.init ownInsert = some s ∧ step s (.draw false) = some s' ∧
      () ∈ (s.txn false).absent.nodes ∧ s.log = [((), true), ((), false)] ∧
      ¬ Changed s false () ((s.txn false).since ()) := by
  have hok : Along step NoLateInsert Index.init ownInsert := by decide
  refine ⟨_, _, rfl, rfl, by decide, rfl, ?_⟩
  exact phantom_check (show run step Index.init ownInsert = some _ from rfl) hok rfl ()
    (by decide)

/-- `false` has compared its leaf when `true` inserts. -/
def lateInsert : List (Act Unit Bool) :=
  [.begin false, .begin true, .search false (), .nodeRead false, .write false, .commit false,
    .check false (), .pass false, .insert true ()]

/-- `false` draws its CSN although another transaction has inserted into its leaf. -/
theorem phantom_at_draw :
    ∃ s s', run step Index.init lateInsert = some s ∧ step s (.draw false) = some s' ∧
      (s.txn false).writes = true ∧ (s'.txn false).endCsn = s.currentCsn ∧
      () ∈ (s.txn false).absent.nodes ∧ Changed s false () ((s.txn false).since ()) := by
  exact ⟨_, _, rfl, rfl, rfl, rfl, by decide, 0, true, le_rfl, rfl, by decide⟩

end Phantom

end PreemptDB
