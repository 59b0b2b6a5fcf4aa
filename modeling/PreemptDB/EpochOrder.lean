/-
The order of reclamation.

`global_quiesce` reclaims the cold epoch before the next one can be opened.  The
last `context_fini` reclaims two epochs on its own, after it has released the
mutex: another context may register and reclaim later epochs first.  It also
expects that there is no cold epoch, which a straggler that has left without
being noticed can falsify.

* `Order` — the cookies that are still to come are later than those in the log;
* `epoch_reclaim` — regions, for all runs, and the order, for runs in which the
  last `context_fini` is not disturbed;
* `reclaimed_out_of_order` — a run in which it is.
-/
import PreemptDB.EpochRun

namespace PreemptDB

open StepRun

namespace Epoch

variable {ι : Type*} {i j : ι} {s s' : State ι} {ph : Phase ι} {fl : ℕ} {ns : List ℕ}

/-- The cookies that `context_fini` has still to reclaim. -/
def Pc.dues : Pc ι → List ℕ
  | .finiUnlock ns | .finiReclaim ns | .finiCall _ ns => ns
  | _ => []

def Pc.erases : Pc ι → Bool
  | .finiErase => true
  | _ => false

def Pc.registers : Pc ι → Bool
  | .initLock => true
  | _ => false

/-- The thread is between the two accesses that move the cooling cookie. -/
def Pc.cooks : Pc ι → Bool
  | .newCookie _ _ _ => true
  | _ => false

/-- The last context is removed when no epoch change is going on, and no context
registers while cookies are due. -/
def Ok [DecidableEq ι] (s : State ι) : Act ι → Prop
  | .call _ _ => True
  | .step i _ _ =>
    ((s.pc i).erases = true → s.contexts.erase i = ∅ → s.ready = true) ∧
      ((s.pc i).registers = true → ∀ j, (s.pc j).dues = [])

instance [DecidableEq ι] [Fintype ι] (s : State ι) : DecidablePred (Ok s)
  | .call _ _ => isTrue trivial
  | .step _ _ _ => inferInstanceAs (Decidable (_ ∧ _))

/-- Cookies are due, and nobody else is there. -/
structure Due (s : State ι) (i : ι) (ns : List ℕ) : Prop where
  sorted : (s.log ++ ns).Pairwise (· < ·)
  below : ∀ n ∈ ns, n < s.beginEpoch
  empty : s.contexts = ∅
  cold : s.cold = none
  cooling : s.cooling = none
  mutex : ∀ j, s.mutex = some j → j = i
  others : ∀ j, j ≠ i → (s.pc j).dues = []

/-- An epoch after all that have been reclaimed, and after the cooling one. -/
structure Latest (s : State ι) (n : ℕ) : Prop where
  log : ∀ m ∈ s.log, m < n
  cooling : ∀ c, s.cooling = some c → c < n

def Ordered (s : State ι) (i : ι) : Pc ι → Prop
  | .quiesceStore c _ => c = s.cold
  | .reclaimed _ _ | .quiesceReady _ => s.cold = none
  | .newUnready n | .newEnded n | .newScan n _ _ _ | .newScanEnd n _ _ _ _ _ | .newCooling n _ _
  | .newCookie n _ _ => ∀ m ∈ s.log, m < n
  | .newCold n _ _ c => (∀ m ∈ s.log, m < n) ∧ c = s.cooling
  | .finiRead | .finiEnd _ | .finiBegin _ => s.ready = true
  | .finiCookie n => s.ready = true ∧ Latest s n
  | .finiSwap a => s.ready = true ∧ ∀ n, a = some n → Latest s n
  | .finiStore a c => s.ready = true ∧ c = s.cooling ∧ ∀ n, a = some n → Latest s n
  | .finiUnlock ns | .finiReclaim ns | .finiCall _ ns => ns ≠ [] → Due s i ns
  | _ => True

structure Order (s : State ι) : Prop where
  sorted : s.log.Pairwise (· < ·)
  below : ∀ m ∈ s.log, m < s.beginEpoch
  ready : s.ready = true → s.cold = none
  cold : ∀ n, s.cold = some n → ∀ m ∈ s.log, m < n
  cooling : ∀ n, s.cooling = some n → ∀ m ∈ s.log, m < n
  apart : (∀ p, (s.pc p).cooks = false) → ∀ a c, s.cold = some a → s.cooling = some c → a < c
  thread : ∀ i, Ordered s i (s.pc i)

theorem order_init : Order (State.init : State ι) :=
  ⟨.nil, nofun, fun _ => rfl, nofun, nofun, nofun, fun _ => trivial⟩

/-- Roles whose order depends on the log and the cooling cookie. -/
def Role.reads : Role ι → Bool
  | .opened _ | .unready _ | .scanning _ _ _ _ _ _ | .alone | .aloneAt _ | .aloneDue _ => true
  | _ => false

theorem Role.held_of_reads {r : Role ι} (h : r.reads = true) : r.held = true := by
  cases r <;> first | rfl | cases h

/-- What another thread sees. -/
theorem Ordered.of (h : Ordered s j (s.pc j)) (hpc : s'.pc j = s.pc j)
    (hcold : (s.pc j).role.token = true → (s.pc j).role.opens = false → s'.cold = s.cold)
    (hreads : (s.pc j).role.reads = true →
      s'.log = s.log ∧ s'.cooling = s.cooling ∧ (s.ready = true → s'.ready = true))
    (hdue : (s.pc j).dues ≠ [] → Due s j (s.pc j).dues → Due s' j (s.pc j).dues) :
    Ordered s' j (s'.pc j) := by
  have hlog : (s.pc j).role.reads = true → ∀ {n}, (∀ m ∈ s.log, m < n) → ∀ m ∈ s'.log, m < n :=
    fun hr n hn => (hreads hr).1 ▸ hn
  have hlatest : (s.pc j).role.reads = true → ∀ {n}, Latest s n → Latest s' n :=
    fun hr n hn => ⟨hlog hr hn.log, (hreads hr).2.1 ▸ hn.cooling⟩
  rw [hpc]
  generalize hq : s.pc j = q at h hcold hlog hreads hlatest hdue ⊢
  cases q with
  | quiesceStore c k =>
    exact h.trans (hcold rfl rfl).symm
  | reclaimed _ _ | quiesceReady _ =>
    exact (hcold rfl rfl).trans h
  | newUnready _ | newEnded _ | newScan _ _ _ _ | newScanEnd _ _ _ _ _ _ | newCooling _ _ _
  | newCookie _ _ _ =>
    exact hlog rfl h
  | newCold n c found v =>
    exact ⟨hlog rfl h.1, h.2.trans (hreads rfl).2.1.symm⟩
  | finiRead | finiEnd _ | finiBegin _ =>
    exact (hreads rfl).2.2 h
  | finiCookie n =>
    exact ⟨(hreads rfl).2.2 h.1, hlatest rfl h.2⟩
  | finiSwap a =>
    exact ⟨(hreads rfl).2.2 h.1, fun n hn => hlatest rfl (h.2 n hn)⟩
  | finiStore a c =>
    exact ⟨(hreads rfl).2.2 h.1, h.2.1.trans (hreads rfl).2.1.symm,
      fun n hn => hlatest rfl (h.2.2 n hn)⟩
  | finiUnlock _ | finiReclaim _ | finiCall _ _ =>
    exact fun hne => hdue hne (h hne)
  | _ => trivial

theorem Ordered.due {p : Pc ι} (h : Ordered s i p) (hne : p.dues ≠ []) : Due s i p.dues := by
  cases p <;> first | exact h hne | exact absurd rfl hne

/-- While there is a context, no cookies are due. -/
theorem Order.dues_eq_nil (h : Order s) (hmem : i ∈ s.contexts) (j : ι) : (s.pc j).dues = [] := by
  by_contra hne
  have hdue := (h.thread j).due hne
  rw [hdue.empty] at hmem
  exact absurd hmem (Finset.notMem_empty i)

/-- While a thread has the mutex, no cookies of another one are due. -/
theorem Order.dues_of_mutex (h : Order s) (hm : s.mutex = some i) (hj : j ≠ i) :
    (s.pc j).dues = [] := by
  by_contra hne
  exact hj (((h.thread j).due hne).mutex i hm).symm

/-- A step that does not touch the cookies. -/
theorem Order.change (h : Order s) {q p : Pc ι} (hq : s.pc i = q) (hp : s'.pc i = p)
    (hpc : ∀ j, j ≠ i → s'.pc j = s.pc j) (hlog : s'.log = s.log) (hcold : s'.cold = s.cold)
    (hcooling : s'.cooling = s.cooling) (hb : s.beginEpoch ≤ s'.beginEpoch)
    (hready : s'.ready = true → s'.cold = none)
    (hkeep : ∀ j, j ≠ i → (s.pc j).role.reads = true → s.ready = true → s'.ready = true)
    (halone : (s'.contexts = s.contexts ∧ (s'.mutex = s.mutex ∨ s'.mutex = none)) ∨
      ∀ j, j ≠ i → (s.pc j).dues = [])
    (hcooks : q.cooks = false) (hdues : p.dues ≠ [] → q.dues ≠ []) (hown : Ordered s' i p) :
    Order s' := by
  refine ⟨hlog ▸ h.sorted, fun m hm => (h.below m (hlog ▸ hm)).trans_le hb, hready, ?_, ?_,
    fun hno a c ha hc => ?_, fun j => ?_⟩
  · rw [hlog, hcold]
    exact h.cold
  · rw [hlog, hcooling]
    exact h.cooling
  · refine h.apart (fun j => ?_) a c (hcold ▸ ha) (hcooling ▸ hc)
    by_cases hj : j = i
    · rw [hj, hq]
      exact hcooks
    · rw [← hpc j hj]
      exact hno j
  · by_cases hj : j = i
    · rw [hj, hp]
      exact hown
    · refine (h.thread j).of (hpc j hj) (fun _ _ => hcold)
        (fun hr => ⟨hlog, hcooling, hkeep j hj hr⟩) fun hne hd => ?_
      rcases halone with ⟨hc, hm⟩ | hnone
      · refine ⟨hlog ▸ hd.sorted, fun n hn => (hd.below n hn).trans_le hb, hc ▸ hd.empty,
          hcold ▸ hd.cold, hcooling ▸ hd.cooling, fun k hk => ?_, fun k hk => ?_⟩
        · rcases hm with hm | hm
          · exact hd.mutex k (hm ▸ hk)
          · rw [hm] at hk
            cases hk
        · by_cases hki : k = i
          · by_contra hne'
            rw [hki, hp] at hne'
            have hold := hd.others i (Ne.symm hj)
            rw [hq] at hold
            exact hdues hne' hold
          · rw [hpc k hki]
            exact hd.others k hk
      · exact absurd (hnone j hj) hne

/-- The state without the threads and the mutex. -/
structure Same (s s' : State ι) : Prop where
  log : s'.log = s.log
  cold : s'.cold = s.cold
  cooling : s'.cooling = s.cooling
  beginEpoch : s'.beginEpoch = s.beginEpoch
  contexts : s'.contexts = s.contexts
  ready : s'.ready = s.ready

/-- A step that does not touch epochs and cookies. -/
theorem Order.quiet (h : Order s) {q p : Pc ι} (hq : s.pc i = q) (hp : s'.pc i = p)
    (hpc : ∀ j, j ≠ i → s'.pc j = s.pc j) (hs : Same s s')
    (hmutex : (s'.mutex = s.mutex ∨ s'.mutex = none) ∨ ∀ j, j ≠ i → (s.pc j).dues = [])
    (hcooks : q.cooks = false) (hdues : p.dues ≠ [] → q.dues ≠ []) (hown : Ordered s' i p) :
    Order s' := by
  refine h.change hq hp hpc hs.log hs.cold hs.cooling hs.beginEpoch.ge ?_
    (fun j _ _ hr => hs.ready ▸ hr) ?_ hcooks hdues hown
  · rw [hs.ready, hs.cold]
    exact h.ready
  · exact hmutex.imp (fun hm => ⟨hs.contexts, hm⟩) id

theorem Inv.closing_of_token (h : Inv s ph fl) (ht : (s.pc i).role.token = true)
    (ho : (s.pc i).role.opens = false) : ph = .closing i := by
  have hrole := (h.thread i).role
  generalize hr : (s.pc i).role = q at hrole ho ht
  cases q with
  | closing c k =>
    exact hrole.2.1
  | opened _ | unready _ | scanning _ _ _ _ _ _ | counting _ _ =>
    cases ho
  | _ =>
    cases ht

theorem Inv.of_reads (h : Inv s ph fl) (hr : (s.pc i).role.reads = true) :
    s.mutex = some i ∧ (ph.opener = some i ∨ s.contexts = ∅) := by
  refine ⟨(h.thread i).mutex.mpr (Pc.critical_of_held _ (Role.held_of_reads hr)), ?_⟩
  have hrole := (h.thread i).role
  generalize hq : (s.pc i).role = q at hrole hr
  cases q with
  | opened n =>
    exact .inl (hrole.2.2 ▸ rfl)
  | unready _ | scanning _ _ _ _ _ _ =>
    exact .inl (hrole.2.2.1 ▸ rfl)
  | alone =>
    exact .inr hrole
  | aloneAt _ | aloneDue _ =>
    exact .inr hrole.1
  | _ =>
    cases hr

/-- A thread that reclaims excludes those that depend on the log. -/
theorem Inv.not_reads (h : Inv s (.closing i) fl) (hmem : i ∈ s.contexts) :
    ¬ (s.pc j).role.reads = true := fun hr => by
  rcases (h.of_reads hr).2 with ho | hc
  · cases ho
  · rw [hc] at hmem
    exact absurd hmem (Finset.notMem_empty i)

theorem Pc.reads_of_cooks {p : Pc ι} (h : p.cooks = true) : p.role.reads = true := by
  cases p <;> first | rfl | cases h

theorem Due.of_same (h : Due s i ns) (hs : Same s s')
    (hmutex : s'.mutex = s.mutex ∨ s'.mutex = none) (hpc : ∀ j, j ≠ i → s'.pc j = s.pc j) :
    Due s' i ns := by
  refine ⟨hs.log ▸ h.sorted, hs.beginEpoch ▸ h.below, hs.contexts ▸ h.empty, hs.cold ▸ h.cold,
    hs.cooling ▸ h.cooling, fun j hj => ?_, fun j hj => ?_⟩
  · rcases hmutex with hm | hm
    · exact h.mutex j (hm ▸ hj)
    · rw [hm] at hj
      cases hj
  · rw [hpc j hj]
    exact h.others j hj

theorem eq_of_cookieOf {n m : ℕ} {cookie : Bool} (h : cookieOf n cookie = some m) : m = n := by
  obtain ⟨-, h⟩ := Option.ite_none_right_eq_some.mp h
  exact (Option.some.inj h).symm

/-- A thread that holds the mutex changes cookies that no other thread depends on. -/
theorem Order.others (h : Order s) (hi : Inv s ph fl) (hm : s.mutex = some i) (hj : j ≠ i)
    (hpc : s'.pc j = s.pc j) (hcold : s'.cold = s.cold ∨ ph ≠ .closing j) :
    Ordered s' j (s'.pc j) := by
  refine (h.thread j).of hpc (fun ht ho => ?_) (fun hr => ?_) fun hne _ => ?_
  · exact hcold.resolve_right (not_not.mpr (hi.closing_of_token ht ho))
  · have hm' := (hi.of_reads hr).1
    rw [hm] at hm'
    cases hm'
    exact absurd rfl hj
  · exact absurd (h.dues_of_mutex hm hj) hne

section Steps

variable [DecidableEq ι]

theorem goto_pc_of_ne (s : State ι) (p : Pc ι) (j : ι) (hj : j ≠ i) : (s.goto i p).pc j = s.pc j :=
  Function.update_of_ne hj _ _

theorem resume_same (s : State ι) (i : ι) (k : Cont) :
    Same s (s.resume i k) ∧ (s.resume i k).mutex = s.mutex ∧
      (∀ j, j ≠ i → (s.resume i k).pc j = s.pc j) ∧ ((s.resume i k).pc i).dues = [] ∧
      ∀ s' : State ι, Ordered s' i ((s.resume i k).pc i) := by
  cases k with
  | retry | done | fini =>
    refine ⟨⟨rfl, rfl, rfl, rfl, rfl, rfl⟩, rfl, goto_pc_of_ne s _, ?_, fun s' => ?_⟩ <;>
      rw [State.resume, State.goto_pc] <;> trivial
  | moved =>
    refine ⟨⟨rfl, rfl, rfl, rfl, rfl, rfl⟩, rfl, goto_pc_of_ne (s.setRegion i _) _, ?_,
      fun s' => ?_⟩ <;>
      rw [State.resume, State.goto_pc] <;> trivial

/-- A return. -/
theorem Order.resume (h : Order s) {q : Pc ι} {k : Cont} (hq : s.pc i = q)
    (hcooks : q.cooks = false) : Order (s.resume i k) := by
  obtain ⟨hsame, hmutex, hpc, hdues, hown⟩ := resume_same s i k
  exact h.quiet hq rfl hpc hsame (.inl (.inl hmutex)) hcooks (fun hne => absurd hdues hne) (hown _)

/-- A step to a place that has no part in the order. -/
theorem Order.goto (h : Order s) {q p : Pc ι} (hq : s.pc i = q) (hcooks : q.cooks = false)
    (hdues : p.dues ≠ [] → q.dues ≠ []) (hown : Ordered (s.goto i p) i p) : Order (s.goto i p) :=
  h.quiet hq (s.goto_pc i p) (goto_pc_of_ne s p) ⟨rfl, rfl, rfl, rfl, rfl, rfl⟩ (.inl (.inl rfl))
    hcooks
    hdues hown

/-- A step that also writes to a context. -/
theorem Order.write (h : Order s) {q p : Pc ι} {c : Ctx} {t : ι} (hq : s.pc i = q)
    (hcooks : q.cooks = false) (hdues : p.dues ≠ [] → q.dues ≠ [])
    (hown : Ordered ((s.setCtx t c).goto i p) i p) : Order ((s.setCtx t c).goto i p) :=
  h.quiet hq (State.goto_pc _ i p) (goto_pc_of_ne (s.setCtx t c) p)
    ⟨rfl, rfl, rfl, rfl, rfl, rfl⟩ (.inl (.inl rfl)) hcooks hdues hown

theorem Order.lock (h : Order s) {q p : Pc ι} (hq : s.pc i = q) (hcooks : q.cooks = false)
    (hdues : p.dues = []) (hnone : ∀ j, (s.pc j).dues = []) (hown : ∀ s' : State ι, Ordered s' i p)
    (hs : s.lock i p = some s') : Order s' := by
  obtain ⟨-, hs⟩ := Option.ite_none_right_eq_some.mp hs
  cases hs
  exact h.quiet hq (State.goto_pc _ i p) (goto_pc_of_ne { s with mutex := some i } p)
    ⟨rfl, rfl, rfl, rfl, rfl, rfl⟩ (.inr fun j _ => hnone j) hcooks
    (fun hne => absurd hdues hne) (hown _)

theorem Order.unlock (h : Order s) {q p : Pc ι} (hq : s.pc i = q) (hcooks : q.cooks = false)
    (hdues : p.dues ≠ [] → q.dues ≠ []) (hown : Ordered (s.unlock i p) i p) :
    Order (s.unlock i p) :=
  h.quiet hq (State.goto_pc _ i p) (goto_pc_of_ne { s with mutex := none } p)
    ⟨rfl, rfl, rfl, rfl, rfl, rfl⟩ (.inl (.inr rfl)) hcooks hdues hown

/-- The cold cookie is taken. -/
theorem Order.quiesceStore (h : Order s) (hi : Inv s ph fl) {cookie : Option ℕ} {k : Cont}
    (hq : s.pc i = .quiesceStore cookie k) :
    Order (match cookie with
      | some n => ({ s with cold := none }.reclaim n).goto i (.reclaimed n k)
      | none => { s with cold := none }.goto i (.quiesceReady k)) := by
  have hrole := (hi.thread i).role
  have hown := h.thread i
  rw [hq] at hrole hown
  obtain ⟨hmem, rfl, -, hbound⟩ := hrole
  have hcold : cookie = s.cold := hown
  -- no other thread looks at the cold cookie or the log
  have hother : ∀ {s' : State ι} {j : ι}, j ≠ i → s'.pc j = s.pc j → Ordered s' j (s'.pc j) :=
    fun {s' j} hj hpc => (h.thread j).of hpc
      (fun ht ho => by
        have hph := hi.closing_of_token ht ho
        cases hph
        exact absurd rfl hj)
      (fun hr => absurd hr (hi.not_reads hmem))
      fun hne => absurd (h.dues_eq_nil hmem j) hne
  have hno : ∀ p, (s.pc p).cooks = false := fun p => by
    by_contra hc
    exact hi.not_reads hmem (Pc.reads_of_cooks (Bool.eq_true_of_not_eq_false hc))
  cases cookie with
  | none =>
    refine ⟨h.sorted, h.below, fun _ => rfl, nofun, h.cooling, nofun, fun j => ?_⟩
    by_cases hj : j = i
    · rw [hj, State.goto_pc]
      rfl
    · exact hother hj (goto_pc_of_ne { s with cold := none } _ j hj)
  | some n =>
    refine ⟨List.pairwise_append.mpr ⟨h.sorted, List.pairwise_singleton _ _, fun m hm x hx => ?_⟩,
      fun m hm => ?_, fun _ => rfl, nofun, fun c hc m hm => ?_, nofun, fun j => ?_⟩
    · rw [List.mem_singleton.mp hx]
      exact h.cold n hcold.symm m hm
    · rcases List.mem_append.mp hm with hm | hm
      · exact h.below m hm
      · rw [List.mem_singleton.mp hm]
        have := hbound n rfl
        change n < s.beginEpoch
        omega
    · rcases List.mem_append.mp hm with hm | hm
      · exact h.cooling c hc m hm
      · rw [List.mem_singleton.mp hm]
        exact h.apart hno n c hcold.symm hc
    · by_cases hj : j = i
      · rw [hj, State.goto_pc]
        rfl
      · exact hother hj (goto_pc_of_ne ({ s with cold := none }.reclaim n) _ j hj)

theorem Order.stepContext (h : Order s) (hi : Inv s ph fl)
    (hs : s.stepContext i (s.pc i) = some s') : Order s' := by
  have hrole := (hi.thread i).role
  have hown := h.thread i
  generalize hq : s.pc i = q at hs hrole hown
  cases q with
  | enterRead | moveRead | exitRead _ =>
    cases hs
    exact h.goto hq rfl (absurd rfl) trivial
  | enterEnd _ | enterBegin _ | checkClear _ | moveClear | moveEnd | moveBegin _ =>
    cases hs
    exact h.write hq rfl (absurd rfl) trivial
  | enterCheck tmp =>
    rw [State.stepContext] at hs
    split at hs <;> cases hs <;> exact h.goto hq rfl (absurd rfl) trivial
  | enterLate tmp2 check =>
    cases hs
    cases check <;> exact h.write hq rfl (absurd rfl) trivial
  | enterFlag tmp tmp2 =>
    rw [State.stepContext] at hs
    split at hs
    · cases hs
      exact h.goto hq rfl (absurd rfl) trivial
    · cases hs
      exact h.quiet hq (State.goto_pc _ i _) (goto_pc_of_ne (s.setRegion i (some tmp)) _)
        ⟨rfl, rfl, rfl, rfl, rfl, rfl⟩ (.inl (.inl rfl)) rfl (absurd rfl) trivial
  | checkEnd tmp k =>
    cases hs
    split <;> exact h.goto hq rfl (absurd rfl) trivial
  | checkLock k =>
    exact h.lock (p := .checkUnlock k) hq rfl rfl (h.dues_eq_nil hrole.1) (fun _ => trivial) hs
  | checkUnlock k =>
    cases hs
    exact h.unlock hq rfl (absurd rfl) trivial
  | checkFlag k =>
    rw [State.stepContext] at hs
    split at hs
    · cases hs
      exact h.goto hq rfl (absurd rfl) trivial
    · cases hs
      exact h.resume hq rfl
  | ended k =>
    cases hs
    split
    · exact h.quiet hq (State.goto_pc _ i _)
        (goto_pc_of_ne { s with nstragglers := s.nstragglers - 1 } _)
        ⟨rfl, rfl, rfl, rfl, rfl, rfl⟩ (.inl (.inl rfl)) rfl (absurd rfl) trivial
    · obtain ⟨hsame, hmutex, hpc, hdues, hown'⟩ :=
        resume_same { s with nstragglers := s.nstragglers - 1 } i k
      exact h.quiet hq rfl hpc ⟨hsame.log, hsame.cold, hsame.cooling, hsame.beginEpoch,
        hsame.contexts, hsame.ready⟩ (.inl (.inl hmutex)) rfl (fun hne => absurd hdues hne)
        (hown' _)
  | quiesceSwap k =>
    cases hs
    exact h.goto hq rfl (absurd rfl) rfl
  | quiesceStore cookie k =>
    cases hs
    exact h.quiesceStore hi hq
  | reclaimed n k =>
    cases hs
    exact h.goto hq rfl (absurd rfl) hown
  | quiesceReady k =>
    cases hs
    -- the cold epoch has been reclaimed by now
    have hcold : s.cold = none := hown
    obtain ⟨hsame, hmutex, hpc, hdues, hown'⟩ := resume_same { s with ready := true } i k
    exact h.change hq rfl hpc hsame.log hsame.cold hsame.cooling hsame.beginEpoch.ge
      (fun _ => hsame.cold.trans hcold) (fun _ _ _ _ => hsame.ready)
      (.inl ⟨hsame.contexts, .inl hmutex⟩) rfl (fun hne => absurd hdues hne) (hown' _)
  | exitEnd tmp k =>
    cases hs
    split <;> exact h.write hq rfl (absurd rfl) trivial
  | exitCheck k =>
    cases hs
    split
    · exact h.resume hq rfl
    · exact h.goto hq rfl (absurd rfl) trivial
  | _ =>
    cases hs

/-- The last context takes the cooling cookie. -/
theorem Order.finiStore (h : Order s) (hi : Inv s ph fl) {active cooling : Option ℕ}
    (hq : s.pc i = .finiStore active cooling) :
    Order ({ s with cooling := none }.goto i (.finiUnlock (cooling.toList ++ active.toList))) := by
  have hm := hi.mutex_of hq rfl
  have hrole := (hi.thread i).role
  have hown := h.thread i
  rw [hq] at hrole hown
  obtain ⟨hempty, hfl, hbound⟩ := hrole
  obtain ⟨hready, rfl, hlatest⟩ := hown
  have hpc := goto_pc_of_ne (i := i) { s with cooling := none }
    (.finiUnlock (s.cooling.toList ++ active.toList))
  refine ⟨h.sorted, h.below, h.ready, h.cold, nofun, nofun, fun j => ?_⟩
  by_cases hj : j = i
  · rw [hj, State.goto_pc]
    refine fun _ => ⟨?_, fun n hn => hfl ▸ hbound n hn, hempty, h.ready hready, rfl,
      fun k hk => ?_, fun k hk => ?_⟩
    · -- the log, then the cooling cookie, then the active one
      refine List.pairwise_append.mpr ⟨h.sorted, List.pairwise_append.mpr ⟨?_, ?_, ?_⟩, ?_⟩
      · cases s.cooling <;> simp
      · cases active <;> simp
      · intro c hc n hn
        exact (hlatest n (Option.mem_toList.mp hn)).cooling c (Option.mem_toList.mp hc)
      · intro m hmem n hn
        rcases List.mem_append.mp hn with hn | hn
        · exact h.cooling n (Option.mem_toList.mp hn) m hmem
        · exact (hlatest n (Option.mem_toList.mp hn)).log m hmem
    · exact Option.some.inj (hk.symm.trans hm)
    · rw [hpc k hk]
      exact h.dues_of_mutex hm hk
  · exact h.others hi hm hj (hpc j hj) (.inl rfl)

/-- A cookie that is due is reclaimed. -/
theorem Order.finiReclaim (h : Order s) (hi : Inv s ph fl) {n : ℕ}
    (hq : s.pc i = .finiReclaim (n :: ns)) :
    Order ((s.reclaim n).goto i (.finiCall n ns)) := by
  have hown := h.thread i
  rw [hq] at hown
  have hdue : Due s i (n :: ns) := hown (List.cons_ne_nil n ns)
  have hsorted : ((s.log ++ [n]) ++ ns).Pairwise (· < ·) := by
    rw [List.append_assoc]
    exact hdue.sorted
  have hpc := goto_pc_of_ne (i := i) (s.reclaim n) (.finiCall n ns)
  have hcold : ((s.reclaim n).goto i (.finiCall n ns)).cold = none := hdue.cold
  have hcooling : ((s.reclaim n).goto i (.finiCall n ns)).cooling = none := hdue.cooling
  refine ⟨(List.pairwise_append.mp hsorted).1, fun m hm => ?_, h.ready, fun c hc => ?_,
    fun c hc => ?_, fun _ c _ hc => ?_, fun j => ?_⟩
  · rcases List.mem_append.mp hm with hm | hm
    · exact h.below m hm
    · rw [List.mem_singleton.mp hm]
      exact hdue.below n List.mem_cons_self
  · rw [hcold] at hc
    cases hc
  · rw [hcooling] at hc
    cases hc
  · rw [hcold] at hc
    cases hc
  · by_cases hj : j = i
    · rw [hj, State.goto_pc]
      refine fun _ => ⟨hsorted, fun m hm => hdue.below m (List.mem_cons_of_mem n hm), hdue.empty,
        hdue.cold, hdue.cooling, hdue.mutex, fun k hk => ?_⟩
      rw [hpc k hk]
      exact hdue.others k hk
    · refine (h.thread j).of (hpc j hj) (fun _ _ => rfl) (fun hr => ?_) fun hne _ => ?_
      · exact absurd (hdue.mutex j (hi.of_reads hr).1) hj
      · exact absurd (hdue.others j hj) hne

theorem Order.stepRegistry (h : Order s) (hi : Inv s ph fl) {pick : ι} {cookie : Bool}
    (hok : Ok s (.step i pick cookie)) (hs : s.stepRegistry i cookie (s.pc i) = some s') :
    Order s' := by
  have hrole := (hi.thread i).role
  have hown := h.thread i
  generalize hq : s.pc i = q at hs hrole hown
  cases q with
  | initLock =>
    exact h.lock (p := .initInsert) hq rfl rfl (hok.2 (by rw [hq]; rfl)) (fun _ => trivial) hs
  | initInsert =>
    cases hs
    have hm := hi.mutex_of hq rfl
    exact h.change hq (State.goto_pc _ i _)
      (goto_pc_of_ne { s with contexts := insert i s.contexts } _) rfl rfl rfl le_rfl h.ready
      (fun _ _ _ => id) (.inr fun j hj => h.dues_of_mutex hm hj) rfl (absurd rfl) trivial
  | initUnlock =>
    cases hs
    exact h.unlock hq rfl (absurd rfl) trivial
  | finiLock =>
    exact h.lock (p := .finiErase) hq rfl rfl (h.dues_eq_nil hrole) (fun _ => trivial) hs
  | finiErase =>
    have hready := hok.1 (by rw [hq]; rfl)
    rw [State.stepRegistry] at hs
    cases hs
    -- nobody owes a call while a context is registered
    have hchange : ∀ p : Pc ι, p.dues = [] →
        Ordered ({ s with contexts := s.contexts.erase i }.goto i p) i p →
        Order ({ s with contexts := s.contexts.erase i }.goto i p) := fun p hp hown' =>
      h.change hq (State.goto_pc _ i p)
        (goto_pc_of_ne { s with contexts := s.contexts.erase i } p) rfl rfl rfl le_rfl h.ready
        (fun _ _ _ => id) (.inr fun j _ => h.dues_eq_nil hrole j) rfl
        (fun hne => absurd hp hne) hown'
    split
    · next hempty => exact hchange .finiRead rfl (hready hempty)
    · exact hchange (.finiUnlock []) rfl (absurd rfl)
  | finiRead =>
    cases hs
    exact h.goto hq rfl (absurd rfl) hown
  | finiEnd n =>
    cases hs
    exact h.quiet hq (State.goto_pc _ i _) (goto_pc_of_ne { s with endEpoch := n + 1 } _)
      ⟨rfl, rfl, rfl, rfl, rfl, rfl⟩ (.inl (.inl rfl)) rfl (absurd rfl) hown
  | finiBegin n =>
    cases hs
    obtain ⟨-, rfl⟩ := hrole
    exact h.change hq (State.goto_pc _ i _)
      (goto_pc_of_ne { s with beginEpoch := s.beginEpoch + 1 } _) rfl rfl rfl (Nat.le_succ _)
      h.ready (fun _ _ _ => id) (.inl ⟨rfl, .inl rfl⟩) rfl (absurd rfl)
      ⟨hown, h.below, hi.shared.cooling⟩
  | finiCookie n =>
    cases hs
    refine h.goto hq rfl (absurd rfl) ⟨hown.1, fun m hm => ?_⟩
    rw [eq_of_cookieOf hm]
    exact ⟨hown.2.log, hown.2.cooling⟩
  | finiSwap active =>
    cases hs
    exact h.goto hq rfl (absurd rfl)
      ⟨hown.1, rfl, fun n hn => ⟨(hown.2 n hn).log, (hown.2 n hn).cooling⟩⟩
  | finiStore active cooling =>
    cases hs
    exact h.finiStore hi hq
  | finiUnlock cookies =>
    cases hs
    refine h.unlock hq rfl id fun hne => ?_
    exact (hown hne).of_same ⟨rfl, rfl, rfl, rfl, rfl, rfl⟩ (.inr rfl)
      (goto_pc_of_ne { s with mutex := none } _)
  | finiReclaim cookies =>
    cases cookies with
    | nil =>
      cases hs
      exact h.goto hq rfl (absurd rfl) trivial
    | cons n cookies =>
      cases hs
      exact h.finiReclaim hi hq
  | finiCall n cookies =>
    cases hs
    refine h.goto hq rfl id fun hne => ?_
    exact (hown hne).of_same ⟨rfl, rfl, rfl, rfl, rfl, rfl⟩ (.inl rfl) (goto_pc_of_ne s _)
  | _ =>
    cases hs

/-- The cooling epoch becomes cold. -/
theorem Order.newCold (h : Order s) (hi : Inv s ph fl) {n : ℕ} {c : Option ℕ} {found : Finset ι}
    {cooling : Option ℕ} (hq : s.pc i = .newCold n c found cooling) :
    Order ({ s with cold := cooling }.goto i (.newCookie n c found)) := by
  have hm := hi.mutex_of hq rfl
  have hrole := (hi.thread i).role
  have hown := h.thread i
  rw [hq] at hrole hown
  obtain ⟨-, -, rfl, hready, -, -⟩ := hrole
  obtain ⟨hlog, rfl⟩ := hown
  have hpc := goto_pc_of_ne (i := i) { s with cold := s.cooling } (.newCookie n c found)
  have hself := State.goto_pc { s with cold := s.cooling } i (.newCookie n c found)
  refine ⟨h.sorted, h.below, fun hr => ?_, h.cooling, h.cooling, fun hno => ?_, fun j => ?_⟩
  · exact absurd (hready.symm.trans hr) Bool.false_ne_true
  · have hcooks := hno i
    rw [hself] at hcooks
    cases hcooks
  · by_cases hj : j = i
    · rw [hj, hself]
      exact hlog
    · exact h.others hi hm hj (hpc j hj) (.inr nofun)

/-- The ended epoch becomes cooling. -/
theorem Order.newCookie (h : Order s) (hi : Inv s ph fl) {n : ℕ} {c : Option ℕ}
    {found : Finset ι} (hq : s.pc i = .newCookie n c found) :
    Order ({ s with cooling := c }.goto i (.newCount n found)) := by
  have hm := hi.mutex_of hq rfl
  have hrole := (hi.thread i).role
  have hown := h.thread i
  rw [hq] at hrole hown
  obtain ⟨-, hn, -, -, hcookie, -⟩ := hrole
  refine ⟨h.sorted, h.below, h.ready, h.cold, fun m hc => ?_, fun _ a m ha hc => ?_, fun j => ?_⟩
  · rw [hcookie m hc]
    exact hown
  · have hcold := hi.shared.cold a ha
    have hmn := hcookie m hc
    omega
  · by_cases hj : j = i
    · rw [hj, State.goto_pc]
      trivial
    · exact h.others hi hm hj (goto_pc_of_ne { s with cooling := c } _ j hj) (.inl rfl)

theorem Order.stepNew (h : Order s) (hi : Inv s ph fl) {pick : ι} {cookie : Bool}
    (hs : s.stepNew i pick cookie (s.pc i) = some s') : Order s' := by
  have hrole := (hi.thread i).role
  have hown := h.thread i
  generalize hq : s.pc i = q at hs hrole hown
  cases q with
  | newLock =>
    exact h.lock (p := .newReady) hq rfl rfl (h.dues_eq_nil hrole) (fun _ => trivial) hs
  | newReady =>
    cases hs
    split <;> exact h.goto hq rfl (absurd rfl) trivial
  | newRead =>
    cases hs
    exact h.goto hq rfl (absurd rfl) trivial
  | newBegin n =>
    cases hs
    obtain ⟨-, -, rfl⟩ := hrole
    exact h.change hq (State.goto_pc _ i _)
      (goto_pc_of_ne { s with beginEpoch := s.beginEpoch + 1 } _) rfl rfl rfl (Nat.le_succ _)
      h.ready (fun _ _ _ => id) (.inl ⟨rfl, .inl rfl⟩) rfl (absurd rfl) h.below
  | newUnready n =>
    -- only the thread with the mutex relies on `ready`
    have hm := hi.mutex_of hq rfl
    cases hs
    refine h.change hq (State.goto_pc _ i _) (goto_pc_of_ne { s with ready := false } _) rfl rfl
      rfl le_rfl nofun (fun j hj hr => ?_) (.inl ⟨rfl, .inl rfl⟩) rfl (absurd rfl) hown
    exact absurd (Option.some.inj ((hi.of_reads hr).1.symm.trans hm)) hj
  | newEnded _ | newScanEnd _ _ _ _ _ _ =>
    cases hs
    exact h.goto hq rfl (absurd rfl) hown
  | newScan n c todo found =>
    rw [State.stepNew] at hs
    split at hs
    · cases hs
      exact h.goto hq rfl (absurd rfl) hown
    · obtain ⟨-, hs⟩ := Option.ite_none_right_eq_some.mp hs
      cases hs
      exact h.goto hq rfl (absurd rfl) hown
  | newCooling n c found =>
    cases hs
    exact h.goto hq rfl (absurd rfl) ⟨hown, rfl⟩
  | newCold n c found cooling =>
    cases hs
    exact h.newCold hi hq
  | newCookie n c found =>
    cases hs
    exact h.newCookie hi hq
  | newCount n found =>
    rw [State.stepNew] at hs
    split at hs
    · cases hs
      exact h.goto hq rfl (absurd rfl) trivial
    · cases hs
      exact h.quiet hq (State.goto_pc _ i _)
        (goto_pc_of_ne { s with nstragglers := found.card } _) ⟨rfl, rfl, rfl, rfl, rfl, rfl⟩
        (.inl (.inl rfl)) rfl (absurd rfl) trivial
  | newFlag n todo =>
    rw [State.stepNew] at hs
    split at hs
    · cases hs
      exact h.goto hq rfl (absurd rfl) trivial
    · obtain ⟨-, hs⟩ := Option.ite_none_right_eq_some.mp hs
      cases hs
      exact h.write hq rfl (absurd rfl) trivial
  | newEnd n direct =>
    cases hs
    exact h.quiet hq (State.goto_pc _ i _) (goto_pc_of_ne { s with endEpoch := n + 1 } _)
      ⟨rfl, rfl, rfl, rfl, rfl, rfl⟩ (.inl (.inl rfl)) rfl (absurd rfl) trivial
  | newUnlock ok direct =>
    cases hs
    have hunlock : ∀ p : Pc ι, p.dues = [] → (∀ s' : State ι, Ordered s' i p) →
        Order ({ s with opened := Function.update s.opened i ok }.unlock i p) :=
      fun p hp hown' => h.quiet hq (State.goto_pc _ i p)
        (goto_pc_of_ne
          { s with opened := Function.update s.opened i ok, mutex := none } p)
        ⟨rfl, rfl, rfl, rfl, rfl, rfl⟩ (.inl (.inr rfl)) rfl (fun hne => absurd hp hne) (hown' _)
    split <;> exact hunlock _ rfl fun _ => trivial
  | _ =>
    cases hs

theorem Order.call (h : Order s) {f : Call} (hq : s.pc i = .idle) (hs : s.call i f = some s') :
    Order s' := by
  have hleave : ∀ p : Pc ι, p.dues = [] → (∀ s' : State ι, Ordered s' i p) →
      Order ((s.setRegion i none).goto i p) := fun p hp hown =>
    h.quiet hq (State.goto_pc _ i p) (goto_pc_of_ne (s.setRegion i none) p)
      ⟨rfl, rfl, rfl, rfl, rfl, rfl⟩ (.inl (.inl rfl)) rfl (fun hne => absurd hp hne) (hown _)
  cases f with
  | enter | init | newEpoch =>
    obtain ⟨-, hs⟩ := Option.ite_none_right_eq_some.mp hs
    cases hs
    exact h.goto hq rfl (absurd rfl) trivial
  | exit =>
    obtain ⟨-, hs⟩ := Option.ite_none_right_eq_some.mp hs
    cases hs
    exact hleave _ rfl fun _ => trivial
  | quiesce =>
    obtain ⟨-, hs⟩ := Option.ite_none_right_eq_some.mp hs
    split at hs
    · cases hs
      exact hleave _ rfl fun _ => trivial
    · cases hs
      exact h
  | fini =>
    obtain ⟨-, hs⟩ := Option.ite_none_right_eq_some.mp hs
    split at hs
    · cases hs
      exact hleave _ rfl fun _ => trivial
    · cases hs
      exact h.goto hq rfl (absurd rfl) trivial

theorem Order.step (h : Order s) (hi : Inv s ph fl) {x : Act ι} (hok : Ok s x)
    (hs : s.step x = some s') : Order s' := by
  cases x with
  | call i f =>
    rw [State.step] at hs
    split at hs
    · next hq => exact h.call hq hs
    · cases hs
  | step i pick cookie =>
    rcases Option.or_eq_some_iff.mp hs with hs | ⟨-, hs⟩
    · exact h.stepContext hi hs
    rcases Option.or_eq_some_iff.mp hs with hs | ⟨-, hs⟩
    · exact h.stepRegistry hi hok hs
    · exact h.stepNew hi hs

/-- While `epoch_reclaimed` runs for epoch `n`, all critical regions are of later epochs.
If the last `context_fini` is not disturbed, cookies are reclaimed in the order of their
epochs. -/
theorem epoch_reclaim {as : List (Act ι)} (hr : run State.step State.init as = some s) :
    (∀ i j n t, Reclaims s i n → s.region j = some t → n < t) ∧
      (Along State.step Ok State.init as → s.log.Pairwise (· < ·)) := by
  constructor
  · intro i j n t hn ht
    obtain ⟨ph, fl, hi⟩ := run_inv hr
    exact hi.reclaims hn ht
  · intro hok
    have h : (∃ ph fl, Inv s ph fl) ∧ Order s :=
      run_invariant_along (I := fun s => (∃ ph fl, Inv s ph fl) ∧ Order s)
        (fun hok hs h => by
          obtain ⟨⟨ph, fl, hi⟩, ho⟩ := h
          exact ⟨hi.step hs, ho.step hi hok hs⟩)
        hok hr ⟨⟨.calm, 0, inv_init⟩, order_init⟩
    exact h.2.sorted

/-- A function runs for `n` steps. -/
def runCall (i : ι) (f : Call) (n : ℕ) : List (Act ι) :=
  .call i f :: List.replicate n (.step i i true)

/-- A context opens three epochs and leaves. -/
def soloRun : List (Act Unit) :=
  runCall () .init 3 ++ runCall () .newEpoch 18 ++ runCall () .newEpoch 19 ++
    runCall () .newEpoch 19 ++ runCall () .fini 14

theorem epoch_reclaim_soloRun :
    ∃ s, run State.step State.init soloRun = some s ∧ s.log = [1, 2, 3, 4] ∧
      s.log.Pairwise (· < ·) := by
  have hlog : (run State.step State.init soloRun).map State.log = some [1, 2, 3, 4] := by
    decide +kernel
  obtain ⟨s, hs, hlog⟩ := Option.map_eq_some_iff.mp hlog
  exact ⟨s, hs, hlog, (epoch_reclaim hs).2 (by decide +kernel)⟩

/-- The last context has left, and a new one opens two epochs before the cookie of the
first is reclaimed. -/
def lateReclaim : List (Act Bool) :=
  runCall false .init 3 ++ runCall false .fini 9 ++ runCall true .init 3 ++
    runCall true .newEpoch 18 ++ runCall true .newEpoch 19 ++ [.step false false true]

theorem reclaimed_out_of_order :
    ∃ s, run State.step State.init lateReclaim = some s ∧ s.log = [2, 1] ∧
      ¬ s.log.Pairwise (· < ·) := by
  have hlog : (run State.step State.init lateReclaim).map State.log = some [2, 1] := by
    decide +kernel
  obtain ⟨s, hs, hlog⟩ := Option.map_eq_some_iff.mp hlog
  refine ⟨s, hs, hlog, ?_⟩
  rw [hlog]
  decide

end Steps

end Epoch

end PreemptDB
