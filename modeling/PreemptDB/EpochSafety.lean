/-
How far the epoch can be ahead of a critical region.

The manager goes through phases: it is calm, a thread opens an epoch and looks for
stragglers, the stragglers drain, and the last one closes the change.  `Phase` says
which, and for each thread there is a promise that depends on the phase and on
where the thread is.  A step of one thread keeps the promises of the others.

* `Phase`, `Role`, `Promise` — what holds for a thread;
* `Rely` — what a thread relies on while others take steps;
* `Inv.step` — the invariant;
* `Inside.lag` — the epoch is at most two ahead of a critical region.
-/
import PreemptDB.Epoch

namespace PreemptDB

namespace Epoch

variable {ι : Type*}

/-- The phases of an epoch change. -/
inductive Phase (ι : Type*)
  | calm
  /-- `p` looks for stragglers: `todo` are not yet looked at, `reading` is one whose
  `begin` has been read -/
  | opening (p : ι) (todo found : Finset ι) (reading : Option (ι × ℕ))
  | counting (p : ι) (found : Finset ι)
  /-- `owing` have to leave, `todo` of them are not yet flagged -/
  | draining (owing todo : Finset ι)
  /-- `p` reclaims the cold epoch -/
  | closing (p : ι)

namespace Phase

def opener : Phase ι → Option ι
  | .opening p _ _ _ | .counting p _ => some p
  | _ => none

/-- The thread that the change depends on. -/
def token : Phase ι → Option ι
  | .opening p _ _ _ | .counting p _ | .closing p => some p
  | _ => none

def owing : Phase ι → Finset ι
  | .draining owing _ => owing
  | _ => ∅

def unflagged : Phase ι → Finset ι
  | .draining _ todo => todo
  | _ => ∅

/-- The change waits for a context, in a region of epoch `t`. -/
def covers : Phase ι → ι → ℕ → Prop
  | .opening _ todo found reading, i, t => i ∈ todo ∨ i ∈ found ∨ reading = some (i, t)
  | .counting _ found, i, _ => i ∈ found
  | .draining owing _, i, _ => i ∈ owing
  | _, _, _ => False

end Phase

/-- The mutex is held. -/
def Pc.critical : Pc ι → Bool
  | .checkUnlock _ | .initInsert | .initUnlock | .finiErase | .finiRead | .finiEnd _
  | .finiBegin _ | .finiCookie _ | .finiSwap _ | .finiStore _ _ | .finiUnlock _ | .newReady
  | .newRead | .newBegin _ | .newUnready _ | .newEnded _ | .newScan _ _ _ _
  | .newScanEnd _ _ _ _ _ _ | .newCooling _ _ _ | .newCold _ _ _ _ | .newCookie _ _ _
  | .newCount _ _ | .newFlag _ _ | .newEnd _ _ | .newUnlock _ _ => true
  | _ => false

/-- The thread is not in a critical region: it is on its way in, out or through
`context_quiesce`. -/
def Pc.outside : Pc ι → Bool
  | .idle | .quiesceSwap .done | .quiesceStore _ .done | .reclaimed _ .done | .quiesceReady .done
  | .newLock | .newReady | .newRead | .newBegin _ | .newUnready _ | .newEnded _
  | .newScan _ _ _ _ | .newScanEnd _ _ _ _ _ _ | .newCooling _ _ _ | .newCold _ _ _ _
  | .newCookie _ _ _ | .newCount _ _ | .newFlag _ _ | .newEnd _ _ | .newUnlock _ _ => false
  | _ => true

/-- What a thread is about, with the values that matter. -/
inductive Role (ι : Type*)
  | free
  | member
  /-- `tmp` has been read -/
  | aim (t : ℕ)
  | aimEnd (t : ℕ)
  | entered (t : ℕ)
  | inside (t : ℕ)
  | helper (k : Cont)
  | clearing (k : Cont)
  | pending (k : Cont)
  | closing (cookie : Option ℕ) (k : Cont)
  | leaving
  | moving
  | movingZero
  | movingTo (t : ℕ)
  /-- the last context has been removed -/
  | alone
  | aloneAt (n : ℕ)
  | aloneDue (cookies : List ℕ)
  | due (cookies : List ℕ)
  | calm
  | calmAt (n : ℕ)
  | opened (n : ℕ)
  | unready (n : ℕ)
  | scanning (n : ℕ) (cookie cooling : Option ℕ) (todo found : Finset ι)
    (reading : Option (ι × ℕ))
  | counting (n : ℕ) (found : Finset ι)
  | flagging (todo : Finset ι)

def Pc.role : Pc ι → Role ι
  | .idle | .initLock | .initInsert => .free
  | .enterRead | .enterLate _ _ | .initUnlock | .finiLock | .finiErase | .newLock | .newReady
  | .newEnd _ false | .newUnlock _ false => .member
  | .enterEnd t => .aim t
  | .enterBegin t => .aimEnd t
  | .enterCheck t => .entered t
  | .enterFlag t _ => .inside t
  | .checkEnd _ k | .checkLock k | .checkUnlock k | .checkFlag k | .exitRead k | .exitEnd _ k
  | .exitCheck k => .helper k
  | .checkClear k => .clearing k
  | .ended k => .pending k
  | .quiesceSwap k | .quiesceReady k => .closing none k
  | .quiesceStore c k => .closing c k
  | .reclaimed n k => .closing (some n) k
  | .newEnd _ true | .newUnlock _ true => .closing none .done
  | .moveClear => .leaving
  | .moveEnd => .moving
  | .moveRead => .movingZero
  | .moveBegin t => .movingTo t
  | .finiRead => .alone
  | .finiEnd n | .finiBegin n => .aloneAt n
  | .finiCookie n => .aloneDue [n]
  | .finiSwap a => .aloneDue a.toList
  | .finiStore a c => .aloneDue (c.toList ++ a.toList)
  | .finiUnlock ns | .finiReclaim ns => .due ns
  | .finiCall n ns => .due (n :: ns)
  | .newRead => .calm
  | .newBegin n => .calmAt n
  | .newUnready n => .opened n
  | .newEnded n => .unready n
  | .newScan n c todo found => .scanning n c none todo found none
  | .newScanEnd n c todo found t b => .scanning n c none todo found (some (t, b))
  | .newCooling n c found | .newCookie n c found => .scanning n c none ∅ found none
  | .newCold n c found cooling => .scanning n c cooling ∅ found none
  | .newCount n found => .counting n found
  | .newFlag _ todo => .flagging todo

/-- Roles that need the mutex. -/
def Role.held : Role ι → Bool
  | .alone | .aloneAt _ | .aloneDue _ | .calm | .calmAt _ | .opened _ | .unready _
  | .scanning _ _ _ _ _ _ | .counting _ _ | .flagging _ => true
  | _ => false

/-- Roles of the thread that opens an epoch. -/
def Role.opens : Role ι → Bool
  | .opened _ | .unready _ | .scanning _ _ _ _ _ _ | .counting _ _ => true
  | _ => false

/-- Roles of the thread that a change depends on. -/
def Role.token : Role ι → Bool
  | .opened _ | .unready _ | .scanning _ _ _ _ _ _ | .counting _ _ | .closing _ _ => true
  | _ => false

theorem Pc.critical_of_held (p : Pc ι) (h : p.role.held = true) : p.critical = true := by
  cases p <;> first | rfl | (rename_i b; cases b <;> first | rfl | cases h) | cases h

theorem Role.held_of_opens {r : Role ι} (h : r.opens = true) : r.held = true := by
  cases r <;> first | rfl | cases h

section Promise

variable (s : State ι) (ph : Phase ι) (fl : ℕ) (i : ι)

/-- An epoch that may be reported.  Cookies below `fl` may be reclaimed by a
`context_fini` at any time. -/
structure Aim (t : ℕ) : Prop where
  pos : 0 < t
  floor : fl ≤ t
  le : t ≤ s.beginEpoch

/-- The context is in a region of epoch `t`. -/
structure Inside (t : ℕ) : Prop where
  mem : i ∈ s.contexts
  aim : Aim s fl t
  begin_eq : (s.ctx i).beginEpoch = t
  end_eq : (s.ctx i).endEpoch = 0
  lag : s.beginEpoch ≤ t + 2
  covered : s.beginEpoch = t + 2 → ph.covers i t

/-- The context is counted as a straggler, and its flag is cleared. -/
structure Pending : Prop where
  mem : i ∈ s.contexts
  owing : i ∈ ph.owing
  flagged : i ∉ ph.unflagged
  clear : (s.ctx i).straggler = false

/-- `context_quiesce` has moved the context to the current epoch. -/
def Moved (k : Cont) : Prop :=
  k = .moved → (s.ctx i).beginEpoch = s.beginEpoch ∧ (s.ctx i).endEpoch = 0

def Promise : Role ι → Prop
  | .free => True
  | .member => i ∈ s.contexts
  | .aim t => i ∈ s.contexts ∧ Aim s fl t
  | .aimEnd t => i ∈ s.contexts ∧ Aim s fl t ∧ (s.ctx i).endEpoch = 0
  | .entered t =>
    i ∈ s.contexts ∧ Aim s fl t ∧ (s.ctx i).endEpoch = 0 ∧ (s.ctx i).beginEpoch = t
  | .inside t => Inside s ph fl i t
  | .helper k => i ∈ s.contexts ∧ k ≠ .moved
  | .clearing k => i ∈ s.contexts ∧ k ≠ .moved ∧ (s.ctx i).straggler = true
  | .pending k => Pending s ph i ∧ Moved s i k
  | .closing c k =>
    i ∈ s.contexts ∧ ph = .closing i ∧ Moved s i k ∧ ∀ n, c = some n → n + 2 ≤ s.beginEpoch
  | .leaving => i ∈ s.contexts ∧ (s.ctx i).straggler = true
  | .moving => Pending s ph i
  | .movingZero => Pending s ph i ∧ (s.ctx i).endEpoch = 0
  | .movingTo t => Pending s ph i ∧ (s.ctx i).endEpoch = 0 ∧ t = s.beginEpoch
  | .alone => s.contexts = ∅
  | .aloneAt n => s.contexts = ∅ ∧ n = s.beginEpoch
  | .aloneDue ns => s.contexts = ∅ ∧ fl = s.beginEpoch ∧ ∀ n ∈ ns, n < fl
  | .due ns => ∀ n ∈ ns, n < fl
  | .calm => i ∈ s.contexts ∧ ph = .calm
  | .calmAt n => i ∈ s.contexts ∧ ph = .calm ∧ n = s.beginEpoch
  | .opened n => i ∈ s.contexts ∧ n + 1 = s.beginEpoch ∧ ph = .opening i s.contexts ∅ none
  | .unready n =>
    i ∈ s.contexts ∧ n + 1 = s.beginEpoch ∧ ph = .opening i s.contexts ∅ none ∧ s.ready = false
  | .scanning n cookie cooling todo found reading =>
    i ∈ s.contexts ∧ n + 1 = s.beginEpoch ∧ ph = .opening i todo found reading ∧
      s.ready = false ∧ (∀ m, cookie = some m → m = n) ∧
      ∀ m, cooling = some m → m + 2 ≤ s.beginEpoch
  | .counting n found => i ∈ s.contexts ∧ n + 1 = s.beginEpoch ∧ ph = .counting i found
  | .flagging todo => i ∈ s.contexts ∧ (todo = ∅ ∨ ∃ owing, ph = .draining owing todo)

/-- What holds for a thread. -/
structure Thread : Prop where
  mutex : s.mutex = some i ↔ (s.pc i).critical = true
  outside : (s.pc i).outside = true → s.region i = none
  region : ∀ t, s.region i = some t → Inside s ph fl i t
  flagged : (s.ctx i).straggler = true → i ∈ ph.owing ∧ i ∉ ph.unflagged
  opener : ph.opener = some i → (s.pc i).role.opens = true
  token : ph.token = some i → (s.pc i).role.token = true
  role : Promise s ph fl i (s.pc i).role

end Promise

/-- The counters of a phase. -/
def PhaseOk (s : State ι) : Phase ι → Prop
  | .calm => s.ready = true ∧ s.nstragglers = 0
  | .opening _ _ _ _ => s.nstragglers = 0 ∧ ∀ n, s.cooling = some n → n + 2 ≤ s.beginEpoch
  | .counting _ _ | .closing _ => s.nstragglers = 0 ∧ s.ready = false
  | .draining owing todo =>
    s.nstragglers = owing.card ∧ s.ready = false ∧ owing.Nonempty ∧ todo ⊆ owing

structure Shared (s : State ι) (ph : Phase ι) (fl : ℕ) : Prop where
  pos : 0 < s.beginEpoch
  floor_le : fl ≤ s.beginEpoch
  token_mem : ∀ p, ph.token = some p → p ∈ s.contexts
  phase : PhaseOk s ph
  cold : ∀ n, s.cold = some n → n + 2 ≤ s.beginEpoch
  cooling : ∀ n, s.cooling = some n → n + 1 ≤ s.beginEpoch

structure Inv (s : State ι) (ph : Phase ι) (fl : ℕ) : Prop where
  shared : Shared s ph fl
  thread : ∀ i, Thread s ph fl i

theorem inv_init : Inv (State.init : State ι) .calm 0 := by
  refine ⟨⟨Nat.one_pos, Nat.zero_le _, nofun, ⟨rfl, rfl⟩, nofun, nofun⟩, fun i => ?_⟩
  exact ⟨⟨nofun, nofun⟩, nofun, nofun, nofun, nofun, nofun, trivial⟩

/-- A thread in a critical section has the mutex. -/
theorem Inv.mutex_of {s : State ι} {ph : Phase ι} {fl : ℕ} (h : Inv s ph fl) {i : ι} {q : Pc ι}
    (hq : s.pc i = q) (hcrit : q.critical = true) : s.mutex = some i :=
  (h.thread i).mutex.mpr (hq ▸ hcrit)

/-- What thread `i` relies on while another thread takes a step. -/
structure Rely (i : ι) (s : State ι) (ph : Phase ι) (fl : ℕ) (s' : State ι) (ph' : Phase ι)
    (fl' : ℕ) : Prop where
  begin_eq : (s'.ctx i).beginEpoch = (s.ctx i).beginEpoch
  end_eq : (s'.ctx i).endEpoch = (s.ctx i).endEpoch
  mem : i ∈ s'.contexts ↔ i ∈ s.contexts
  le : s.beginEpoch ≤ s'.beginEpoch
  floor_le : fl ≤ fl'
  floor : i ∈ s.contexts → fl' = fl
  held : s.mutex = some i → s'.beginEpoch = s.beginEpoch ∧ s'.contexts = s.contexts ∧ fl' = fl ∧
    (ph = .calm → ph' = .calm) ∧
    ∀ owing todo, ph = .draining owing todo → todo ≠ ∅ → ∃ owing', ph' = .draining owing' todo
  token : ph'.token = some i → ph.token = some i
  keeps : ph.token = some i → ph' = ph ∧ s'.beginEpoch = s.beginEpoch ∧
    (s.ready = false → s'.ready = false)
  owes : i ∈ ph.owing → i ∉ ph.unflagged → i ∈ ph'.owing ∧ i ∉ ph'.unflagged ∧
    (s'.ctx i).straggler = (s.ctx i).straggler ∧
    (i ∈ s.contexts → s'.beginEpoch = s.beginEpoch)
  flagged : (s.ctx i).straggler = false → (s'.ctx i).straggler = true →
    i ∈ ph'.owing ∧ i ∉ ph'.unflagged
  covered : ∀ t, Inside s ph fl i t →
    s'.beginEpoch ≤ t + 2 ∧ (s'.beginEpoch = t + 2 → ph'.covers i t)

theorem Phase.token_of_opener {ph : Phase ι} {i : ι} (h : ph.opener = some i) :
    ph.token = some i := by
  cases ph <;> first | exact h | cases h

section Rely

variable {i : ι} {s s' : State ι} {ph ph' : Phase ι} {fl fl' t : ℕ}

theorem Rely.aim (h : Rely i s ph fl s' ph' fl') (hm : i ∈ s.contexts) (ha : Aim s fl t) :
    Aim s' fl' t :=
  ⟨ha.pos, h.floor hm ▸ ha.floor, ha.le.trans h.le⟩

theorem Rely.inside (h : Rely i s ph fl s' ph' fl') (hi : Inside s ph fl i t) :
    Inside s' ph' fl' i t :=
  ⟨h.mem.mpr hi.mem, h.aim hi.mem hi.aim, h.begin_eq.trans hi.begin_eq, h.end_eq.trans hi.end_eq,
    (h.covered t hi).1, (h.covered t hi).2⟩

theorem Rely.pending (h : Rely i s ph fl s' ph' fl') (hp : Pending s ph i) : Pending s' ph' i := by
  obtain ⟨howing, hflagged, hstraggler, -⟩ := h.owes hp.owing hp.flagged
  exact ⟨h.mem.mpr hp.mem, howing, hflagged, hstraggler.trans hp.clear⟩

theorem Rely.moved (h : Rely i s ph fl s' ph' fl') (hb : s'.beginEpoch = s.beginEpoch) {k : Cont}
    (hm : Moved s i k) : Moved s' i k :=
  fun hk => ⟨h.begin_eq.trans ((hm hk).1.trans hb.symm), h.end_eq.trans (hm hk).2⟩

theorem Rely.straggler (h : Rely i s ph fl s' ph' fl')
    (hf : (s.ctx i).straggler = true → i ∈ ph.owing ∧ i ∉ ph.unflagged)
    (hs : (s.ctx i).straggler = true) : (s'.ctx i).straggler = true :=
  (h.owes (hf hs).1 (hf hs).2).2.2.1.trans hs

theorem Rely.role (h : Rely i s ph fl s' ph' fl')
    (hf : (s.ctx i).straggler = true → i ∈ ph.owing ∧ i ∉ ph.unflagged) {r : Role ι}
    (hm : r.held = true → s.mutex = some i) (hr : Promise s ph fl i r) :
    Promise s' ph' fl' i r := by
  cases r with
  | free => trivial
  | member => exact h.mem.mpr hr
  | aim t => exact ⟨h.mem.mpr hr.1, h.aim hr.1 hr.2⟩
  | aimEnd t => exact ⟨h.mem.mpr hr.1, h.aim hr.1 hr.2.1, h.end_eq.trans hr.2.2⟩
  | entered t =>
    exact ⟨h.mem.mpr hr.1, h.aim hr.1 hr.2.1, h.end_eq.trans hr.2.2.1,
      h.begin_eq.trans hr.2.2.2⟩
  | inside t => exact h.inside hr
  | helper k => exact ⟨h.mem.mpr hr.1, hr.2⟩
  | clearing k => exact ⟨h.mem.mpr hr.1, hr.2.1, h.straggler hf hr.2.2⟩
  | pending k =>
    obtain ⟨hp, hk⟩ := hr
    have hb := (h.owes hp.owing hp.flagged).2.2.2 hp.mem
    exact ⟨h.pending hp, h.moved hb hk⟩
  | closing c k =>
    obtain ⟨hmem, rfl, hk, hc⟩ := hr
    obtain ⟨hph, hb, -⟩ := h.keeps rfl
    exact ⟨h.mem.mpr hmem, hph, h.moved hb hk, fun n hn => hb ▸ hc n hn⟩
  | leaving => exact ⟨h.mem.mpr hr.1, h.straggler hf hr.2⟩
  | moving => exact h.pending hr
  | movingZero => exact ⟨h.pending hr.1, h.end_eq.trans hr.2⟩
  | movingTo t =>
    obtain ⟨hp, hz, ht⟩ := hr
    have hb := (h.owes hp.owing hp.flagged).2.2.2 hp.mem
    exact ⟨h.pending hp, h.end_eq.trans hz, ht.trans hb.symm⟩
  -- the mutex is held: the others leave the epochs and the contexts alone
  | alone => exact (h.held (hm rfl)).2.1.trans hr
  | aloneAt n => exact ⟨(h.held (hm rfl)).2.1.trans hr.1, hr.2.trans (h.held (hm rfl)).1.symm⟩
  | aloneDue ns =>
    obtain ⟨hb, hc, hfl, -⟩ := h.held (hm rfl)
    subst hfl
    exact ⟨hc.trans hr.1, hr.2.1.trans hb.symm, hr.2.2⟩
  | due ns => exact fun n hn => (hr n hn).trans_le h.floor_le
  | calm => exact ⟨h.mem.mpr hr.1, (h.held (hm rfl)).2.2.2.1 hr.2⟩
  | calmAt n =>
    exact ⟨h.mem.mpr hr.1, (h.held (hm rfl)).2.2.2.1 hr.2.1,
      hr.2.2.trans (h.held (hm rfl)).1.symm⟩
  | opened n =>
    obtain ⟨hmem, hn, rfl⟩ := hr
    obtain ⟨hph, hb, -⟩ := h.keeps rfl
    exact ⟨h.mem.mpr hmem, hn.trans hb.symm, hph.trans (by rw [(h.held (hm rfl)).2.1])⟩
  | unready n =>
    obtain ⟨hmem, hn, rfl, hready⟩ := hr
    obtain ⟨hph, hb, hready'⟩ := h.keeps rfl
    exact ⟨h.mem.mpr hmem, hn.trans hb.symm, hph.trans (by rw [(h.held (hm rfl)).2.1]),
      hready' hready⟩
  | scanning n cookie cooling todo found reading =>
    obtain ⟨hmem, hn, rfl, hready, hcookie, hc⟩ := hr
    obtain ⟨hph, hb, hready'⟩ := h.keeps rfl
    exact ⟨h.mem.mpr hmem, hn.trans hb.symm, hph, hready' hready, hcookie,
      fun m hm => hb ▸ hc m hm⟩
  | counting n found =>
    obtain ⟨hmem, hn, rfl⟩ := hr
    obtain ⟨hph, hb, -⟩ := h.keeps rfl
    exact ⟨h.mem.mpr hmem, hn.trans hb.symm, hph⟩
  | flagging todo =>
    obtain ⟨hmem, htodo⟩ := hr
    refine ⟨h.mem.mpr hmem, ?_⟩
    by_cases hempty : todo = ∅
    · exact .inl hempty
    · obtain ⟨owing, hph⟩ := htodo.resolve_left hempty
      exact .inr ((h.held (hm rfl)).2.2.2.2 owing todo hph hempty)

/-- The promises of a thread are kept by the steps of others. -/
theorem Rely.thread (h : Rely i s ph fl s' ph' fl') (hpc : s'.pc i = s.pc i)
    (hregion : s'.region i = s.region i) (hmutex : s'.mutex = some i ↔ s.mutex = some i)
    (ht : Thread s ph fl i) : Thread s' ph' fl' i := by
  refine ⟨?_, fun hout => ?_, fun t hreg => ?_, fun hflag => ?_, fun hop => ?_, fun htok => ?_, ?_⟩
  · rw [hmutex, hpc]
    exact ht.mutex
  · rw [hregion]
    exact ht.outside (hpc ▸ hout)
  · exact h.inside (ht.region t (hregion ▸ hreg))
  · by_cases hold : (s.ctx i).straggler = true
    · obtain ⟨howing, hun⟩ := ht.flagged hold
      exact ⟨(h.owes howing hun).1, (h.owes howing hun).2.1⟩
    · exact h.flagged (Bool.eq_false_of_not_eq_true hold) hflag
  · have hkeep := h.keeps (h.token (Phase.token_of_opener hop))
    rw [hpc]
    exact ht.opener (hkeep.1 ▸ hop)
  · rw [hpc]
    exact ht.token (h.token htok)
  · rw [hpc]
    exact h.role ht.flagged (fun hheld => ht.mutex.mpr (Pc.critical_of_held _ hheld)) ht.role

end Rely

end Epoch

end PreemptDB
