/-
Contexts that are or will be flagged as stragglers.

A thread that opens an epoch first finds the stragglers, then counts them, then
flags them.  Between the first and the last, a straggler may leave.  The invariant
here says where a context can be that has been found: it is active, or it will
come to `straggler_check` and wait there for the change.

* `Pc.view` — what a thread that opens an epoch has found and has still to flag;
* `Marked` — a context that is or will be flagged;
* `Care`, `Watch` — the invariant;
* `Watch.quiet` — steps that change nothing of this; the others have a lemma each.
-/
import PreemptDB.EpochRun

namespace PreemptDB

open Function

namespace Epoch

variable {ι : Type*} {i j : ι} {s s' : State ι} {ph : Phase ι} {fl : ℕ}

/-- What a thread knows about stragglers. -/
structure View (ι : Type*) where
  /-- the epoch that it ends -/
  opening : Option ℕ
  /-- the stragglers that it has found and not yet flagged -/
  marks : Finset ι
  /-- the context whose `begin` it has read -/
  reading : Option (ι × ℕ)
  /-- the stragglers that are counted and not yet flagged -/
  flags : Finset ι
  /-- the thread has cleared its flag and is still counted -/
  owes : Bool

def View.blank : View ι := ⟨none, ∅, none, ∅, false⟩

def Pc.view : Pc ι → View ι
  | .newUnready n | .newEnded n | .newEnd n _ => ⟨some n, ∅, none, ∅, false⟩
  | .newScan n _ _ found | .newCooling n _ found | .newCold n _ found _ | .newCookie n _ found
  | .newCount n found => ⟨some n, found, none, ∅, false⟩
  | .newScanEnd n _ _ found t b => ⟨some n, found, some (t, b), ∅, false⟩
  | .newFlag n todo => ⟨some n, todo, none, todo, false⟩
  | .ended _ | .moveEnd | .moveRead | .moveBegin _ => ⟨none, ∅, none, ∅, true⟩
  | _ => .blank

/-- The context is flagged as a straggler, or a thread that opens an epoch has found it. -/
def Marked (s : State ι) (i : ι) : Prop :=
  (s.ctx i).straggler = true ∨ ∃ j, i ∈ (s.pc j).view.marks

/-- The context is counted as a straggler. -/
def Owes (s : State ι) (i : ι) : Prop :=
  (s.ctx i).straggler = true ∨ (s.pc i).view.owes = true ∨ ∃ j, i ∈ (s.pc j).view.flags

/-- The cold cookie has been taken. -/
def Pc.taken : Pc ι → Bool
  | .reclaimed _ _ | .quiesceReady _ => true
  | _ => false

/-- The last context has stored `end` and not yet `begin`. -/
def Pc.closes : Pc ι → Bool
  | .finiBegin _ => true
  | _ => false

/-- What holds for the thread that opens an epoch. -/
def Seen (s : State ι) (v : View ι) : Prop :=
  ∀ n, v.opening = some n → n + 1 = s.beginEpoch ∧ s.endEpoch ≤ n ∧
    (∀ t ∈ v.marks, n ≤ (s.ctx t).beginEpoch + 1) ∧
    ∀ t b, v.reading = some (t, b) → b ≤ (s.ctx t).beginEpoch

/-- A context that has left. -/
def Gone (s : State ι) (i : ι) : Prop := ¬ Marked s i ∧ ¬ (s.ctx i).active

/-- A context in a critical region, or one that has left. -/
def Settled (s : State ι) (i : ι) : Prop :=
  (Marked s i → (s.ctx i).active) ∧ (i ∉ s.contexts → ¬ (s.ctx i).active)

/-- A marked context is active, or it will look at its flag. -/
def Care (s : State ι) (i : ι) : Pc ι → Prop
  | .enterRead | .finiLock | .finiErase | .finiRead | .finiEnd _ | .finiBegin _ | .finiCookie _
  | .finiSwap _ | .finiStore _ _ | .finiUnlock _ | .finiReclaim _ | .finiCall _ _ => Gone s i
  | .enterEnd tmp => Gone s i ∧ (s.ctx i).beginEpoch ≤ tmp
  | .enterBegin tmp | .enterCheck tmp =>
    (s.ctx i).beginEpoch ≤ tmp ∧ (Marked s i → s.beginEpoch ≤ tmp + 2)
  | .enterLate tmp2 false =>
    ¬ Marked s i ∧ (s.ctx i).beginEpoch + 3 ≤ tmp2 ∧ tmp2 ≤ s.beginEpoch
  | .enterLate tmp2 true =>
    (s.ctx i).beginEpoch ≤ tmp2 ∧
      ((s.ctx i).straggler = true ∨ (s.ctx i).beginEpoch + 2 ≤ tmp2)
  | .enterFlag _ tmp2 => (s.ctx i).beginEpoch ≤ tmp2
  | .checkEnd tmp _ =>
    ¬ (s.ctx i).active ∧ ((s.ctx i).straggler = true ∨ (s.ctx i).beginEpoch + 2 ≤ tmp)
  | .checkLock _ | .checkClear _ | .exitCheck _ => ¬ (s.ctx i).active
  | .checkUnlock _ | .checkFlag _ =>
    ¬ (s.ctx i).active ∧ (Marked s i → (s.ctx i).straggler = true)
  | .ended k | .quiesceSwap k | .quiesceStore _ k | .reclaimed _ k | .quiesceReady k =>
    k = .retry ∨ k = .fini → ¬ (s.ctx i).active
  | .moveClear | .moveEnd | .moveRead | .moveBegin _ | .exitRead _ => True
  | .exitEnd tmp _ => (s.ctx i).beginEpoch ≤ tmp
  | _ => Settled s i

structure Watch (s : State ι) : Prop where
  care : ∀ i, Care s i (s.pc i)
  seen : ∀ i, Seen s (s.pc i).view
  ends : s.endEpoch ≤ s.beginEpoch ∨
    ∃ j, (s.pc j).closes = true ∧ s.endEpoch ≤ s.beginEpoch + 1
  le : ∀ i, (s.ctx i).beginEpoch ≤ s.beginEpoch
  count : ∃ owing : Finset ι, owing.card = s.nstragglers ∧ ∀ i, i ∈ owing ↔ Owes s i
  ready : s.ready = true → s.cold = none
  taken : ∀ i, (s.pc i).taken = true → s.cold = none

theorem not_marked_init (i : ι) : ¬ Marked (State.init : State ι) i := by
  rintro (h | ⟨j, hj⟩)
  · cases h
  · exact absurd hj (Finset.notMem_empty i)

theorem watch_init : Watch (State.init : State ι) := by
  refine ⟨fun i => ⟨fun h => absurd h (not_marked_init i), fun _ => Nat.lt_irrefl 0⟩,
    fun i n h => ?_, .inl le_rfl, fun i => Nat.zero_le _, ⟨∅, rfl, fun i => ⟨fun h => ?_, ?_⟩⟩,
    fun _ => rfl, fun i h => ?_⟩
  · cases h
  · exact absurd h (Finset.notMem_empty i)
  · rintro (h | h | ⟨j, hj⟩)
    · cases h
    · cases h
    · exact absurd hj (Finset.notMem_empty i)
  · cases h

/-! ### What the invariant of the phases says about marks -/

theorem Pc.critical_of_opening {p : Pc ι} {n : ℕ} (h : p.view.opening = some n) :
    p.critical = true := by
  cases p <;> first | rfl | cases h

theorem Pc.opening_of_marks {p : Pc ι} (h : i ∈ p.view.marks) :
    ∃ n, p.view.opening = some n := by
  cases p <;> first | exact ⟨_, rfl⟩ | exact absurd h (Finset.notMem_empty i)

theorem Pc.marks_of_flags {p : Pc ι} (h : i ∈ p.view.flags) : i ∈ p.view.marks := by
  cases p <;> first | exact h | exact absurd h (Finset.notMem_empty i)

/-- A context that is found belongs to the phase. -/
theorem Inv.marks (h : Inv s ph fl) (hm : i ∈ (s.pc j).view.marks) :
    ph.opener = some j ∨ i ∈ ph.unflagged := by
  have hrole := (h.thread j).role
  generalize hq : s.pc j = q at hrole hm
  cases q with
  | newScan _ _ _ _ | newScanEnd _ _ _ _ _ _ | newCooling _ _ _ | newCold _ _ _ _
  | newCookie _ _ _ =>
    exact .inl (hrole.2.2.1 ▸ rfl)
  | newCount n found =>
    exact .inl (hrole.2.2 ▸ rfl)
  | newFlag n todo =>
    rcases hrole.2 with hempty | ⟨owing, hph⟩
    · have hmem : i ∈ todo := hm
      rw [hempty] at hmem
      exact absurd hmem (Finset.notMem_empty i)
    · exact .inr (hph ▸ hm)
  | _ =>
    exact absurd hm (Finset.notMem_empty i)

/-- A marked context belongs to the phase. -/
theorem Inv.marked (h : Inv s ph fl) (hm : Marked s i) :
    ph.opener ≠ none ∨ i ∈ ph.owing := by
  rcases hm with hflag | ⟨j, hj⟩
  · exact .inr ((h.thread i).flagged hflag).1
  · rcases h.marks hj with ho | hu
    · exact .inl fun hnone => by rw [ho] at hnone; cases hnone
    · refine .inr ?_
      have hphase := h.shared.phase
      cases ph <;> first | exact absurd hu (Finset.notMem_empty i) | exact hphase.2.2.2 hu

theorem Inv.not_marked_calm (h : Inv s .calm fl) : ¬ Marked s i := fun hm =>
  (h.marked hm).elim (fun ho => ho rfl) (Finset.notMem_empty i)

theorem Inv.not_marked_closing (h : Inv s (.closing j) fl) : ¬ Marked s i := fun hm =>
  (h.marked hm).elim (fun ho => ho rfl) (Finset.notMem_empty i)

theorem Inv.not_marked_pending (h : Inv s ph fl) (hp : Pending s ph i) : ¬ Marked s i := by
  rintro (hflag | ⟨j, hj⟩)
  · rw [hp.clear] at hflag
    cases hflag
  · rcases h.marks hj with ho | hu
    · have howing := hp.owing
      cases ph <;> first | exact absurd howing (Finset.notMem_empty i) | cases ho
    · exact hp.flagged hu

/-- Only the thread that has the mutex opens an epoch. -/
theorem Inv.opening_eq_none (h : Inv s ph fl) (hm : s.mutex = some i) (hj : j ≠ i) :
    (s.pc j).view.opening = none := by
  by_contra hne
  obtain ⟨n, hn⟩ := Option.ne_none_iff_exists'.mp hne
  have hmutex := (h.thread j).mutex.mpr (Pc.critical_of_opening hn)
  exact hj (Option.some.inj (hmutex.symm.trans hm))

theorem Inv.closes_eq (h : Inv s ph fl) (hm : s.mutex = some i) (hj : (s.pc j).closes = true) :
    j = i := by
  have hcrit : (s.pc j).critical = true := by
    cases hq : s.pc j <;> rw [hq] at hj <;> first | rfl | cases hj
  exact Option.some.inj (((h.thread j).mutex.mpr hcrit).symm.trans hm)

/-! ### Steps -/

/-- What a thread sees of the steps of others. -/
structure Others (j : ι) (s s' : State ι) : Prop where
  begin_eq : (s'.ctx j).beginEpoch = (s.ctx j).beginEpoch
  end_eq : (s'.ctx j).endEpoch = (s.ctx j).endEpoch
  flag : (s.ctx j).straggler = true → (s'.ctx j).straggler = true
  marked : Marked s' j →
    Marked s j ∨ ((s.ctx j).active ∧ s'.beginEpoch ≤ (s.ctx j).beginEpoch + 2)
  le : s.beginEpoch ≤ s'.beginEpoch
  keep : Marked s j → j ∈ s.contexts → s'.beginEpoch = s.beginEpoch
  mem : j ∈ s'.contexts ↔ j ∈ s.contexts

theorem Others.active (o : Others j s s') : (s'.ctx j).active ↔ (s.ctx j).active := by
  rw [Ctx.active, Ctx.active, o.begin_eq, o.end_eq]

theorem Others.gone (o : Others j s s') (h : Gone s j) : Gone s' j :=
  ⟨fun hm => (o.marked hm).elim h.1 fun hn => h.2 hn.1, fun ha => h.2 (o.active.mp ha)⟩

theorem Others.settled (o : Others j s s') (h : Settled s j) : Settled s' j := by
  rw [Settled, o.active, o.mem]
  exact ⟨fun hm => (o.marked hm).elim h.1 fun hn => hn.1, h.2⟩

theorem Others.entering (o : Others j s s') (hmem : j ∈ s.contexts) {tmp : ℕ}
    (h : (s.ctx j).beginEpoch ≤ tmp ∧ (Marked s j → s.beginEpoch ≤ tmp + 2)) :
    (s'.ctx j).beginEpoch ≤ tmp ∧ (Marked s' j → s'.beginEpoch ≤ tmp + 2) := by
  refine ⟨o.begin_eq ▸ h.1, fun hm => ?_⟩
  rcases o.marked hm with hold | ⟨-, hnew⟩
  · rw [o.keep hold hmem]
    exact h.2 hold
  · have hle := h.1
    omega

/-- A context that is not active is not marked anew. -/
theorem Others.checking (o : Others j s s')
    (h : ¬ (s.ctx j).active ∧ (Marked s j → (s.ctx j).straggler = true)) :
    ¬ (s'.ctx j).active ∧ (Marked s' j → (s'.ctx j).straggler = true) := by
  refine ⟨fun ha => h.1 (o.active.mp ha), fun hm => ?_⟩
  have hold : Marked s j := (o.marked hm).resolve_right fun hn => h.1 hn.1
  exact o.flag (h.2 hold)

theorem Others.late (o : Others j s s') {tmp : ℕ}
    (h : (s.ctx j).straggler = true ∨ (s.ctx j).beginEpoch + 2 ≤ tmp) :
    (s'.ctx j).straggler = true ∨ (s'.ctx j).beginEpoch + 2 ≤ tmp :=
  h.imp o.flag fun hle => o.begin_eq ▸ hle

theorem Care.others (o : Others j s s') (hi : Inv s ph fl) (h : Care s j (s.pc j)) :
    Care s' j (s.pc j) := by
  have hrole := (hi.thread j).role
  have hactive : ¬ (s.ctx j).active → ¬ (s'.ctx j).active := fun hc ha => hc (o.active.mp ha)
  generalize hq : s.pc j = q at hrole h
  cases q with
  | enterRead | finiLock | finiErase | finiRead | finiEnd _ | finiBegin _ | finiCookie _
  | finiSwap _ | finiStore _ _ | finiUnlock _ | finiReclaim _ | finiCall _ _ =>
    exact o.gone h
  | enterEnd tmp =>
    exact ⟨o.gone h.1, o.begin_eq ▸ h.2⟩
  | enterBegin tmp | enterCheck tmp =>
    exact o.entering hrole.1 h
  | enterLate tmp2 check =>
    cases check with
    | false =>
      obtain ⟨hm, hlt, hle⟩ := h
      refine ⟨fun hm' => ?_, o.begin_eq ▸ hlt, hle.trans o.le⟩
      -- a scan that ends this epoch looks for later regions
      rcases o.marked hm' with hold | ⟨-, hnew⟩
      · exact hm hold
      · have := o.le
        omega
    | true => exact ⟨o.begin_eq ▸ h.1, o.late h.2⟩
  | enterFlag tmp tmp2 | exitEnd tmp k =>
    exact o.begin_eq.trans_le h
  | checkEnd tmp k =>
    exact ⟨hactive h.1, o.late h.2⟩
  | checkLock k | checkClear k | exitCheck k =>
    exact hactive h
  | checkUnlock k | checkFlag k =>
    exact o.checking h
  | ended k | quiesceSwap k | quiesceStore c k | reclaimed n k | quiesceReady k =>
    exact fun hk => hactive (h hk)
  | moveClear | moveEnd | moveRead | moveBegin t | exitRead k => trivial
  | _ =>
    exact o.settled h

/-- The general form of a step. -/
theorem Watch.change (h : Watch s) (hi : Inv s ph fl) {p : Pc ι} (hp : s'.pc i = p)
    (hpc : ∀ j, j ≠ i → s'.pc j = s.pc j) (ho : ∀ j, j ≠ i → Others j s s')
    (hseen : ∀ j, Seen s' (s'.pc j).view)
    (hends : s'.endEpoch ≤ s'.beginEpoch ∨
      ∃ j, (s'.pc j).closes = true ∧ s'.endEpoch ≤ s'.beginEpoch + 1)
    (hle : (s'.ctx i).beginEpoch ≤ s'.beginEpoch)
    (hcount : ∃ owing : Finset ι, owing.card = s'.nstragglers ∧ ∀ j, j ∈ owing ↔ Owes s' j)
    (hready : s'.ready = true → s'.cold = none)
    (htaken : ∀ j, (s'.pc j).taken = true → s'.cold = none) (hown : Care s' i p) : Watch s' := by
  refine ⟨fun j => ?_, hseen, hends, fun j => ?_, hcount, hready, htaken⟩
  · by_cases hj : j = i
    · rw [hj, hp]
      exact hown
    · rw [hpc j hj]
      exact (h.care j).others (ho j hj) hi
  · by_cases hj : j = i
    · rw [hj]
      exact hle
    · rw [(ho j hj).begin_eq]
      exact (h.le j).trans (ho j hj).le

theorem Watch.ends_of (h : Watch s) (hpc : ∀ j, j ≠ i → s'.pc j = s.pc j)
    (hcloses : (s.pc i).closes = false) (hb : s'.beginEpoch = s.beginEpoch)
    (he : s'.endEpoch = s.endEpoch) :
    s'.endEpoch ≤ s'.beginEpoch ∨
      ∃ j, (s'.pc j).closes = true ∧ s'.endEpoch ≤ s'.beginEpoch + 1 := by
  rw [hb, he]
  rcases h.ends with hle | ⟨j, hj, hle⟩
  · exact .inl hle
  · have hne : j ≠ i := by
      rintro rfl
      rw [hcloses] at hj
      cases hj
    exact .inr ⟨j, by rw [hpc j hne]; exact hj, hle⟩

theorem Watch.taken_of (h : Watch s) {p : Pc ι} (hp : s'.pc i = p)
    (hpc : ∀ j, j ≠ i → s'.pc j = s.pc j) (htaken : p.taken = false) (hcold : s'.cold = s.cold)
    (j : ι) (hj : (s'.pc j).taken = true) : s'.cold = none := by
  rw [hcold]
  by_cases hji : j = i
  · rw [hji, hp, htaken] at hj
    cases hj
  · rw [hpc j hji] at hj
    exact h.taken j hj

theorem Watch.count_of (h : Watch s) (hn : s'.nstragglers = s.nstragglers)
    (ho : ∀ j, Owes s' j ↔ Owes s j) :
    ∃ owing : Finset ι, owing.card = s'.nstragglers ∧ ∀ j, j ∈ owing ↔ Owes s' j := by
  obtain ⟨owing, hcard, hmem⟩ := h.count
  exact ⟨owing, hcard.trans hn.symm, fun j => (hmem j).trans (ho j).symm⟩

/-- With the mutex, `end` is not ahead of `begin`. -/
theorem Watch.end_le (h : Watch s) (hi : Inv s ph fl) (hm : s.mutex = some i)
    (hcloses : (s.pc i).closes = false) : s.endEpoch ≤ s.beginEpoch := by
  rcases h.ends with he | ⟨j, hj, -⟩
  · exact he
  · rw [hi.closes_eq hm hj, hcloses] at hj
    cases hj

/-- A context that is found and not yet flagged waits in `straggler_check`. -/
theorem Watch.flagged_of_marked (h : Watch s) {tmp : ℕ}
    (hlate : (s.ctx i).straggler = true ∨ (s.ctx i).beginEpoch + 2 ≤ tmp)
    (hend : ¬ s.endEpoch < tmp) (hm : Marked s i) : (s.ctx i).straggler = true := by
  rcases hm with hflag | ⟨j, hj⟩
  · exact hflag
  rcases hlate with hflag | hle
  · exact hflag
  obtain ⟨n, hn⟩ := Pc.opening_of_marks hj
  obtain ⟨-, hendn, hmarks, -⟩ := h.seen j n hn
  have := hmarks i hj
  omega

/-- A step that changes neither the epochs nor the stragglers, nor what is known about them. -/
structure Quiet (i : ι) (s s' : State ι) : Prop where
  pc : ∀ j, j ≠ i → s'.pc j = s.pc j
  view : (s'.pc i).view = (s.pc i).view
  ctx : ∀ j, j ≠ i → s'.ctx j = s.ctx j
  straggler : (s'.ctx i).straggler = (s.ctx i).straggler
  mono : (s.ctx i).beginEpoch ≤ (s'.ctx i).beginEpoch
  beginEpoch : s'.beginEpoch = s.beginEpoch
  endEpoch : s'.endEpoch = s.endEpoch
  nstragglers : s'.nstragglers = s.nstragglers
  mem : ∀ j, j ≠ i → (j ∈ s'.contexts ↔ j ∈ s.contexts)

theorem Quiet.view_eq (q : Quiet i s s') (j : ι) : (s'.pc j).view = (s.pc j).view := by
  by_cases hj : j = i
  · rw [hj]
    exact q.view
  · rw [q.pc j hj]

theorem Quiet.straggler_eq (q : Quiet i s s') (j : ι) :
    (s'.ctx j).straggler = (s.ctx j).straggler := by
  by_cases hj : j = i
  · rw [hj]
    exact q.straggler
  · rw [q.ctx j hj]

theorem Quiet.marked (q : Quiet i s s') (j : ι) : Marked s' j ↔ Marked s j := by
  simp only [Marked, q.view_eq, q.straggler_eq]

theorem Quiet.owes (q : Quiet i s s') (j : ι) : Owes s' j ↔ Owes s j := by
  simp only [Owes, q.view_eq, q.straggler_eq]

theorem Quiet.begin_le (q : Quiet i s s') (j : ι) :
    (s.ctx j).beginEpoch ≤ (s'.ctx j).beginEpoch := by
  by_cases hj : j = i
  · rw [hj]
    exact q.mono
  · rw [q.ctx j hj]

theorem Watch.of_quiet (h : Watch s) (hi : Inv s ph fl) (q : Quiet i s s')
    (hcloses : (s.pc i).closes = false) (hle : (s'.ctx i).beginEpoch ≤ s.beginEpoch)
    (hready : s'.ready = true → s'.cold = none)
    (htaken : ∀ j, (s'.pc j).taken = true → s'.cold = none)
    (hown : Care s' i (s'.pc i)) : Watch s' := by
  refine h.change hi rfl q.pc (fun j hj => ?_) (fun j n hn => ?_) ?_ (q.beginEpoch ▸ hle) ?_
    hready htaken hown
  · exact ⟨by rw [q.ctx j hj], by rw [q.ctx j hj], by rw [q.ctx j hj]; exact id,
      fun hm => .inl ((q.marked j).mp hm), q.beginEpoch.ge, fun _ _ => q.beginEpoch, q.mem j hj⟩
  · rw [q.view_eq] at hn ⊢
    obtain ⟨hb, he, hmarks, hreading⟩ := h.seen j n hn
    refine ⟨hb.trans q.beginEpoch.symm, q.endEpoch ▸ he, fun t ht => ?_, fun t b hr => ?_⟩
    · exact (hmarks t ht).trans (Nat.add_le_add_right (q.begin_le t) 1)
    · exact (hreading t b hr).trans (q.begin_le t)
  · exact h.ends_of q.pc hcloses q.beginEpoch q.endEpoch
  · exact h.count_of q.nstragglers q.owes

/-- Such a step that does not store a cold cookie. -/
theorem Watch.quiet (h : Watch s) (hi : Inv s ph fl) (q : Quiet i s s')
    (hcloses : (s.pc i).closes = false) (hle : (s'.ctx i).beginEpoch ≤ s.beginEpoch)
    (hcold : s'.cold = s.cold ∨ s'.cold = none)
    (hready : s'.ready = true → s.ready = true ∨ s'.cold = none)
    (htaken : (s'.pc i).taken = true → (s.pc i).taken = true ∨ s'.cold = none)
    (hown : Care s' i (s'.pc i)) : Watch s' := by
  have hnone : s.cold = none → s'.cold = none := fun hc => hcold.elim (fun he => he.trans hc) id
  refine h.of_quiet hi q hcloses hle
    (fun hr => (hready hr).elim (fun hr => hnone (h.ready hr)) id) (fun j hj => ?_) hown
  by_cases hji : j = i
  · rw [hji] at hj
    exact (htaken hj).elim (fun ht => hnone (h.taken i ht)) id
  · rw [q.pc j hji] at hj
    exact hnone (h.taken j hj)

/-- If no call is in progress, no thread has a part in an epoch change. -/
theorem Inv.ready_of_idle (h : Inv s ph fl) (hidle : ∀ i, s.pc i = .idle)
    (hn : s.nstragglers = 0) : s.ready = true := by
  have htoken : ∀ p, ph.token ≠ some p := fun p hp => by
    have htok := (h.thread p).token hp
    rw [hidle p] at htok
    cases htok
  have hphase := h.shared.phase
  cases ph with
  | calm => exact hphase.1
  | opening p todo found reading => exact absurd rfl (htoken p)
  | counting p found => exact absurd rfl (htoken p)
  | closing p => exact absurd rfl (htoken p)
  | draining owing todo =>
    have hcard : 0 < owing.card := hphase.2.2.1.card_pos
    rw [← hphase.1, hn] at hcard
    exact absurd hcard (Nat.lt_irrefl 0)

theorem Inv.mutex_of_idle (h : Inv s ph fl) (hidle : ∀ i, s.pc i = .idle) : s.mutex = none := by
  by_contra hne
  obtain ⟨i, hi⟩ := Option.ne_none_iff_exists'.mp hne
  have hcrit := (h.thread i).mutex.mp hi
  rw [hidle i] at hcrit
  cases hcrit

section Steps

variable [DecidableEq ι]

/-- A step that changes where the thread is, and perhaps the mutex and other fields that have no
part in this. -/
theorem Watch.move (h : Watch s) (hi : Inv s ph fl) {q p : Pc ι} (hq : s.pc i = q)
    (hp : s'.pc = update s.pc i p) (hctx : s'.ctx = s.ctx)
    (hb : s'.beginEpoch = s.beginEpoch) (he : s'.endEpoch = s.endEpoch)
    (hn : s'.nstragglers = s.nstragglers) (hmem : ∀ j, j ≠ i → (j ∈ s'.contexts ↔ j ∈ s.contexts))
    (hcold : s'.cold = s.cold) (hready : s'.ready = true → s.ready = true)
    (hview : p.view = q.view) (hcloses : q.closes = false)
    (htaken : p.taken = false ∨ q.taken = true)
    (hown : (Marked s' i → Marked s i) → Care s' i p) : Watch s' := by
  have hself : s'.pc i = p := by rw [hp, update_self]
  have quiet : Quiet i s s' :=
    ⟨fun j hj => by rw [hp, update_of_ne hj], by rw [hself, hq, hview],
      fun _ _ => by rw [hctx], by rw [hctx], by rw [hctx], hb, he, hn, hmem⟩
  refine h.quiet hi quiet (hq ▸ hcloses) (by rw [hctx]; exact h.le i) (.inl hcold)
    (fun hr => .inl (hready hr)) (fun ht => ?_) ?_
  · rw [hself] at ht
    rw [hq]
    exact .inl (htaken.resolve_left (ne_false_of_eq_true ht))
  · rw [hself]
    exact hown (quiet.marked i).mp

theorem Watch.goto (h : Watch s) (hi : Inv s ph fl) {q p : Pc ι} (hq : s.pc i = q)
    (hview : p.view = q.view) (hcloses : q.closes = false) (htaken : p.taken = false)
    (hown : (Marked (s.goto i p) i → Marked s i) → Care (s.goto i p) i p) :
    Watch (s.goto i p) :=
  h.move hi hq rfl rfl rfl rfl rfl (fun _ _ => Iff.rfl) rfl id hview hcloses
    (.inl htaken) hown

/-- A region begins or ends. -/
theorem Watch.gotoRegion (h : Watch s) (hi : Inv s ph fl) {q p : Pc ι} {r : Option ℕ}
    (hq : s.pc i = q) (hview : p.view = q.view) (hcloses : q.closes = false)
    (htaken : p.taken = false)
    (hown : (Marked ((s.setRegion i r).goto i p) i → Marked s i) →
      Care ((s.setRegion i r).goto i p) i p) : Watch ((s.setRegion i r).goto i p) :=
  h.move hi hq rfl rfl rfl rfl rfl (fun _ _ => Iff.rfl) rfl id hview hcloses
    (.inl htaken) hown

theorem Watch.lock (h : Watch s) (hi : Inv s ph fl) {q p : Pc ι} (hq : s.pc i = q)
    (hview : p.view = q.view) (hcloses : q.closes = false) (htaken : p.taken = false)
    (hown : s.mutex = none → ∀ s' : State ι, s'.ctx = s.ctx → s'.contexts = s.contexts →
      (Marked s' i → Marked s i) → Care s' i p)
    (hs : s.lock i p = some s') : Watch s' := by
  obtain ⟨hfree, hs⟩ := Option.ite_none_right_eq_some.mp hs
  cases hs
  exact h.move hi hq rfl rfl rfl rfl rfl (fun _ _ => Iff.rfl) rfl id hview hcloses
    (.inl htaken) (hown hfree _ rfl rfl)

theorem Watch.unlock (h : Watch s) (hi : Inv s ph fl) {q p : Pc ι} (hq : s.pc i = q)
    (hview : p.view = q.view) (hcloses : q.closes = false) (htaken : p.taken = false)
    (hown : (Marked (s.unlock i p) i → Marked s i) → Care (s.unlock i p) i p) :
    Watch (s.unlock i p) :=
  h.move hi hq rfl rfl rfl rfl rfl (fun _ _ => Iff.rfl) rfl id hview hcloses
    (.inl htaken) hown

/-- A step that writes `begin` or `end` of the context. -/
theorem Watch.write (h : Watch s) (hi : Inv s ph fl) {q p : Pc ι} {c : Ctx} (hq : s.pc i = q)
    (hview : p.view = q.view) (hcloses : q.closes = false) (htaken : p.taken = false)
    (hstraggler : c.straggler = (s.ctx i).straggler) (hmono : (s.ctx i).beginEpoch ≤ c.beginEpoch)
    (hle : c.beginEpoch ≤ s.beginEpoch)
    (hown : ∀ s' : State ι, (Marked s' i → Marked s i) → s'.ctx i = c →
      s'.beginEpoch = s.beginEpoch → Care s' i p) :
    Watch ((s.setCtx i c).goto i p) := by
  have hself := (s.setCtx i c).goto_pc i p
  have hctx : ((s.setCtx i c).goto i p).ctx i = c := s.setCtx_ctx i c
  have quiet : Quiet i s ((s.setCtx i c).goto i p) :=
    ⟨fun j hj => update_of_ne hj _ _, by rw [hself, hq, hview],
      fun j hj => update_of_ne hj _ _, by rw [hctx, hstraggler], by rw [hctx]; exact hmono,
      rfl, rfl, rfl, fun _ _ => Iff.rfl⟩
  refine h.quiet hi quiet (hq ▸ hcloses) (by rw [hctx]; exact hle) (.inl rfl) .inl
    (fun ht => ?_) ?_
  · rw [hself, htaken] at ht
    cases ht
  · rw [hself]
    exact hown _ (quiet.marked i).mp hctx rfl

theorem State.resume_view (s : State ι) (i : ι) (k : Cont) :
    ((s.resume i k).pc i).view = .blank ∧ ((s.resume i k).pc i).taken = false ∧
      (∀ j, j ≠ i → (s.resume i k).pc j = s.pc j) ∧ (s.resume i k).endEpoch = s.endEpoch := by
  have hne : ∀ (p : Pc ι) (j : ι), j ≠ i → update s.pc i p j = s.pc j :=
    fun p j hj => update_of_ne hj p s.pc
  cases k <;> refine ⟨?_, ?_, hne _, rfl⟩ <;> rw [State.resume, State.goto_pc] <;> rfl

/-- A context that is not marked may return. -/
theorem care_resume {k : Cont} (hmarked : ¬ Marked (s.resume i k) i) (hmem : i ∈ s.contexts)
    (hk : k = .retry ∨ k = .fini → ¬ (s.ctx i).active) :
    Care (s.resume i k) i ((s.resume i k).pc i) := by
  have hsettled : ∀ {s' : State ι}, ¬ Marked s' i → i ∈ s'.contexts → Settled s' i :=
    fun hm hc => ⟨fun h => absurd h hm, fun h => absurd hc h⟩
  cases k with
  | retry =>
    rw [State.resume, State.goto_pc]
    exact ⟨hmarked, hk (.inl rfl)⟩
  | done | moved =>
    rw [State.resume, State.goto_pc]
    exact hsettled hmarked hmem
  | fini =>
    rw [State.resume, State.goto_pc]
    exact ⟨hmarked, hk (.inr rfl)⟩

theorem Watch.resume (h : Watch s) (hi : Inv s ph fl) {q : Pc ι} {k : Cont} (hq : s.pc i = q)
    (hview : q.view = .blank) (hcloses : q.closes = false) (hm : ¬ Marked s i)
    (hmem : i ∈ s.contexts) (hk : k = .retry ∨ k = .fini → ¬ (s.ctx i).active) :
    Watch (s.resume i k) := by
  obtain ⟨hb, hc, hr, hn, -, hcold, hctx⟩ := s.resume_fields i k
  obtain ⟨hview', htaken, hpc, he⟩ := s.resume_view i k
  have quiet : Quiet i s (s.resume i k) :=
    ⟨hpc, by rw [hview', hq, hview], fun _ _ => by rw [hctx], by rw [hctx], by rw [hctx], hb, he,
      hn,
      fun _ _ => by rw [hc]⟩
  refine h.quiet hi quiet (hq ▸ hcloses) (by rw [hctx]; exact h.le i) (.inl hcold)
    (fun h' => .inl (hr ▸ h')) (fun ht => ?_) ?_
  · rw [htaken] at ht
    cases ht
  · exact care_resume (fun hm' => hm ((quiet.marked i).mp hm')) hmem hk

/-- Only the thread with the mutex opens an epoch. -/
theorem seen_of_mutex (hi : Inv s ph fl) (hm : s.mutex = some i)
    (hpc : ∀ j, j ≠ i → s'.pc j = s.pc j) (hown : Seen s' (s'.pc i).view) (j : ι) :
    Seen s' (s'.pc j).view := by
  by_cases hj : j = i
  · rw [hj]
    exact hown
  · intro n hn
    rw [hpc j hj, hi.opening_eq_none hm hj] at hn
    cases hn

/-- The context is still counted when its flag is cleared. -/
theorem Watch.clear (h : Watch s) (hi : Inv s ph fl) {q p : Pc ι} (hq : s.pc i = q)
    (hblank : q.view = .blank) (hview : p.view = ⟨none, ∅, none, ∅, true⟩)
    (hcloses : q.closes = false) (htaken : p.taken = false)
    (hflag : (s.ctx i).straggler = true)
    (hown : ∀ s' : State ι, ((s'.ctx i).active → (s.ctx i).active) → Care s' i p) :
    Watch ((s.setStraggler i false).goto i p) := by
  have hself := (s.setStraggler i false).goto_pc i p
  have hpc : ∀ j, j ≠ i → ((s.setStraggler i false).goto i p).pc j = s.pc j :=
    fun j hj => update_of_ne hj _ _
  have hctx : ∀ j, j ≠ i → ((s.setStraggler i false).goto i p).ctx j = s.ctx j :=
    fun j hj => update_of_ne hj _ _
  have hctx' : ((s.setStraggler i false).goto i p).ctx i = { s.ctx i with straggler := false } :=
    s.setCtx_ctx i _
  have hbegin : ∀ t, (((s.setStraggler i false).goto i p).ctx t).beginEpoch =
      (s.ctx t).beginEpoch := by
    intro t
    by_cases ht : t = i
    · rw [ht, hctx']
    · rw [hctx t ht]
  have hmarks : ∀ k, (((s.setStraggler i false).goto i p).pc k).view.marks =
      (s.pc k).view.marks ∧ (((s.setStraggler i false).goto i p).pc k).view.flags =
        (s.pc k).view.flags := by
    intro k
    by_cases hk : k = i
    · rw [hk, hself, hq, hview, hblank]
      exact ⟨rfl, rfl⟩
    · rw [hpc k hk]
      exact ⟨rfl, rfl⟩
  refine h.change hi hself hpc (fun j hj => ?_) (fun j n hn => ?_) ?_ (hbegin i ▸ h.le i) ?_ h.ready
    (h.taken_of hself hpc htaken rfl) (hown _ ?_)
  · refine ⟨hbegin j, by rw [hctx j hj], by rw [hctx j hj]; exact id, fun hm => .inl ?_, le_rfl,
      fun _ _ => rfl, Iff.rfl⟩
    rw [Marked, hctx j hj] at hm
    exact hm.imp id fun ⟨k, hk⟩ => ⟨k, (hmarks k).1 ▸ hk⟩
  · by_cases hj : j = i
    · rw [hj, hself, hview] at hn
      cases hn
    · rw [hpc j hj] at hn ⊢
      simp only [hbegin]
      exact h.seen j n hn
  · exact h.ends_of hpc (hq ▸ hcloses) rfl rfl
  · refine h.count_of rfl fun j => ?_
    simp only [Owes, (hmarks _).2]
    by_cases hj : j = i
    · rw [hj, hself, hview, hflag]
      simp
    · rw [hctx j hj, hpc j hj]
  · rw [hctx']
    exact id

/-- A straggler is no longer counted. -/
theorem Watch.ended (h : Watch s) (hi : Inv s ph fl) {k : Cont} (hq : s.pc i = .ended k)
    (hpc : ∀ j, j ≠ i → s'.pc j = s.pc j) (hview : (s'.pc i).view = .blank)
    (htaken : (s'.pc i).taken = false) (hctx : s'.ctx = s.ctx)
    (hb : s'.beginEpoch = s.beginEpoch) (he : s'.endEpoch = s.endEpoch)
    (hn : s'.nstragglers = s.nstragglers - 1) (hc : s'.contexts = s.contexts)
    (hcold : s'.cold = s.cold) (hready : s'.ready = s.ready)
    (hown : ¬ Marked s' i → Care s' i (s'.pc i)) : Watch s' := by
  have hp : Pending s ph i := by
    have hrole := (hi.thread i).role
    rw [hq] at hrole
    exact hrole.1
  have hmarks : ∀ k, (s'.pc k).view.marks = (s.pc k).view.marks ∧
      (s'.pc k).view.flags = (s.pc k).view.flags := by
    intro k
    by_cases hk : k = i
    · rw [hk, hview, hq]
      exact ⟨rfl, rfl⟩
    · rw [hpc k hk]
      exact ⟨rfl, rfl⟩
  have hmarked : ∀ j, Marked s' j ↔ Marked s j := fun j => by
    simp only [Marked, hctx, (hmarks _).1]
  have hclear : ¬ Marked s i := hi.not_marked_pending hp
  refine h.change hi rfl hpc (fun j hj => ?_) (fun j n hn' => ?_) ?_
    (by rw [hctx, hb]; exact h.le i)
    ?_ (by rw [hready, hcold]; exact h.ready) (h.taken_of rfl hpc htaken hcold)
    (hown fun hm => hclear ((hmarked i).mp hm))
  · exact ⟨by rw [hctx], by rw [hctx], by rw [hctx]; exact id, fun hm => .inl ((hmarked j).mp hm),
      hb.ge, fun _ _ => hb, by rw [hc]⟩
  · by_cases hj : j = i
    · rw [hj, hview] at hn'
      cases hn'
    · rw [hpc j hj] at hn' ⊢
      rw [hb, he, hctx]
      exact h.seen j n hn'
  · exact h.ends_of hpc (hq ▸ rfl) hb he
  · obtain ⟨owing, hcard, hmem⟩ := h.count
    have howes : i ∈ owing := (hmem i).mpr (.inr (.inl (by rw [hq]; rfl)))
    refine ⟨owing.erase i, by rw [Finset.card_erase_of_mem howes, hcard, hn], fun j => ?_⟩
    rw [Finset.mem_erase, hmem]
    simp only [Owes, hctx, (hmarks _).2]
    by_cases hj : j = i
    · rw [hj]
      refine ⟨fun hne => absurd rfl hne.1, ?_⟩
      rintro (hflag | howe | ⟨l, hl⟩)
      · exact absurd (.inl hflag) hclear
      · rw [hview] at howe
        cases howe
      · exact absurd (.inr ⟨l, Pc.marks_of_flags hl⟩) hclear
    · rw [hpc j hj]
      exact ⟨fun h => h.2, fun h => ⟨hj, h⟩⟩

/-- The thread that opens an epoch looks at a context. -/
theorem Watch.look (h : Watch s) (hi : Inv s ph fl) {q p : Pc ι} (hq : s.pc i = q)
    (hm : s.mutex = some i) (hcloses : q.closes = false) (htaken : p.taken = false)
    (hflags : p.view.flags = q.view.flags) (howes : p.view.owes = q.view.owes)
    (hmarks : ∀ t ∈ p.view.marks, t ∈ q.view.marks ∨
      ((s.ctx t).active ∧ s.beginEpoch ≤ (s.ctx t).beginEpoch + 2))
    (hseen : Seen s p.view) (hsettled : Settled s i)
    (hown : Settled (s.goto i p) i → Care (s.goto i p) i p) : Watch (s.goto i p) := by
  have hself := s.goto_pc i p
  have hpc : ∀ j, j ≠ i → (s.goto i p).pc j = s.pc j := fun j hj => update_of_ne hj _ _
  have hmarked : ∀ j, Marked (s.goto i p) j →
      Marked s j ∨ ((s.ctx j).active ∧ s.beginEpoch ≤ (s.ctx j).beginEpoch + 2) := by
    rintro j (hflag | ⟨k, hk⟩)
    · exact .inl (.inl hflag)
    · by_cases hki : k = i
      · rw [hki, hself] at hk
        exact (hmarks j hk).imp (fun hk => .inr ⟨i, by rw [hq]; exact hk⟩) id
      · rw [hpc k hki] at hk
        exact .inl (.inr ⟨k, hk⟩)
  refine h.change hi hself hpc (fun j _ => ?_) ?_ (h.ends_of hpc (hq ▸ hcloses) rfl rfl) (h.le i) ?_
    h.ready (h.taken_of hself hpc htaken rfl) (hown ?_)
  · exact ⟨rfl, rfl, id, hmarked j, le_rfl, fun _ _ => rfl, Iff.rfl⟩
  · refine seen_of_mutex hi hm hpc ?_
    rw [hself]
    exact hseen
  · refine h.count_of rfl fun j => ?_
    have hview : ∀ k, ((s.goto i p).pc k).view.flags = (s.pc k).view.flags ∧
        ((s.goto i p).pc k).view.owes = (s.pc k).view.owes := by
      intro k
      by_cases hk : k = i
      · rw [hk, hself, hq]
        exact ⟨hflags, howes⟩
      · rw [hpc k hk]
        exact ⟨rfl, rfl⟩
    simp only [Owes, (hview _).1, (hview _).2]
    exact Iff.rfl
  · exact ⟨fun hm' => (hmarked i hm').elim hsettled.1 fun hn => hn.1, hsettled.2⟩

/-- The thread with the mutex stores an epoch. -/
theorem Watch.store (h : Watch s) (hi : Inv s ph fl) {q p : Pc ι} (hq : s.pc i = q)
    (hm : s.mutex = some i) (hp : s'.pc = update s.pc i p) (hctx : s'.ctx = s.ctx)
    (hc : s'.contexts = s.contexts) (hn : s'.nstragglers = s.nstragglers)
    (hcold : s'.cold = s.cold) (hready : s'.ready = s.ready)
    (hmarks : p.view.marks = q.view.marks) (hflags : p.view.flags = q.view.flags)
    (howes : p.view.owes = q.view.owes) (htaken : p.taken = false)
    (hb : s.beginEpoch ≤ s'.beginEpoch)
    (hkeep : ∀ j, Marked s j → j ∈ s.contexts → s'.beginEpoch = s.beginEpoch)
    (hseen : Seen s' p.view)
    (hends : s'.endEpoch ≤ s'.beginEpoch ∨
      (p.closes = true ∧ s'.endEpoch ≤ s'.beginEpoch + 1))
    (hown : (Marked s' i → Marked s i) → Care s' i p) : Watch s' := by
  have hself : s'.pc i = p := by rw [hp, update_self]
  have hpc : ∀ j, j ≠ i → s'.pc j = s.pc j := fun j hj => by rw [hp, update_of_ne hj]
  have hview : ∀ j, (s'.pc j).view.marks = (s.pc j).view.marks ∧
      (s'.pc j).view.flags = (s.pc j).view.flags ∧ (s'.pc j).view.owes = (s.pc j).view.owes := by
    intro j
    by_cases hj : j = i
    · rw [hj, hself, hq]
      exact ⟨hmarks, hflags, howes⟩
    · rw [hpc j hj]
      exact ⟨rfl, rfl, rfl⟩
  have hmarked : ∀ j, Marked s' j ↔ Marked s j := fun j => by
    simp only [Marked, hctx, (hview _).1]
  refine h.change hi hself hpc (fun j _ => ?_) ?_ ?_ ?_ (h.count_of hn fun j => ?_) ?_
    (h.taken_of hself hpc htaken hcold) (hown (hmarked i).mp)
  · exact ⟨by rw [hctx], by rw [hctx], by rw [hctx]; exact id, fun h' => .inl ((hmarked j).mp h'),
      hb, hkeep j, by rw [hc]⟩
  · refine seen_of_mutex hi hm hpc ?_
    rw [hself]
    exact hseen
  · exact hends.imp id fun hle => ⟨i, by rw [hself]; exact hle.1, hle.2⟩
  · rw [hctx]
    exact (h.le i).trans hb
  · simp only [Owes, hctx, (hview _).2.1, (hview _).2.2]
  · rw [hready, hcold]
    exact h.ready

/-- The epoch is advanced when nobody is marked. -/
theorem Watch.newBegin (h : Watch s) (hi : Inv s ph fl) {n : ℕ} (hq : s.pc i = .newBegin n) :
    Watch ({ s with beginEpoch := n + 1 }.goto i (.newUnready n)) := by
  have hm := hi.mutex_of hq rfl
  have hends := h.end_le hi hm (hq ▸ rfl)
  have hrole := (hi.thread i).role
  rw [hq] at hrole
  obtain ⟨hmem, rfl, rfl⟩ := hrole
  refine h.store hi hq hm rfl rfl rfl rfl rfl rfl rfl rfl rfl rfl (Nat.le_succ _)
    (fun j hj => absurd hj hi.not_marked_calm) (fun n hn => ?_) (.inl (hends.trans (Nat.le_succ _)))
    fun hmk => ⟨fun h' => absurd (hmk h') hi.not_marked_calm, fun hne => absurd hmem hne⟩
  cases hn
  exact ⟨rfl, hends, fun t ht => absurd ht (Finset.notMem_empty t), fun t b hr => by cases hr⟩

theorem Watch.newEnd (h : Watch s) (hi : Inv s ph fl) {n : ℕ} {direct : Bool}
    (hq : s.pc i = .newEnd n direct) :
    Watch ({ s with endEpoch := n + 1 }.goto i (.newUnlock true direct)) := by
  have hm := hi.mutex_of hq rfl
  have hseen := h.seen i
  have hcare := h.care i
  rw [hq] at hseen hcare
  refine h.store hi hq hm rfl rfl rfl rfl rfl rfl rfl rfl rfl rfl le_rfl (fun _ _ _ => rfl)
    (fun m hn => by cases hn) (.inl (hseen n rfl).1.le) fun hmk => ?_
  exact ⟨fun h' => hcare.1 (hmk h'), hcare.2⟩

theorem Watch.finiEnd (h : Watch s) (hi : Inv s ph fl) {n : ℕ} (hq : s.pc i = .finiEnd n) :
    Watch ({ s with endEpoch := n + 1 }.goto i (.finiBegin n)) := by
  have hm := hi.mutex_of hq rfl
  have hrole := (hi.thread i).role
  have hcare := h.care i
  rw [hq] at hrole hcare
  obtain ⟨-, rfl⟩ := hrole
  refine h.store hi hq hm rfl rfl rfl rfl rfl rfl rfl rfl rfl rfl le_rfl (fun _ _ _ => rfl)
    (fun m hn => by cases hn) (.inr ⟨rfl, le_rfl⟩) fun hmk => ?_
  exact ⟨fun h' => hcare.1 (hmk h'), hcare.2⟩

theorem Watch.finiBegin (h : Watch s) (hi : Inv s ph fl) {n : ℕ} (hq : s.pc i = .finiBegin n) :
    Watch ({ s with beginEpoch := n + 1 }.goto i (.finiCookie n)) := by
  have hm := hi.mutex_of hq rfl
  have hrole := (hi.thread i).role
  have hcare := h.care i
  rw [hq] at hrole hcare
  obtain ⟨hempty, rfl⟩ := hrole
  have hends : s.endEpoch ≤ s.beginEpoch + 1 :=
    h.ends.elim (fun hle => hle.trans (Nat.le_succ _)) fun ⟨_, _, hle⟩ => hle
  refine h.store hi hq hm rfl rfl rfl rfl rfl rfl rfl rfl rfl rfl (Nat.le_succ _)
    (fun j _ hj => ?_) (fun m hn => by cases hn) (.inl hends) fun hmk => ?_
  · rw [hempty] at hj
    exact absurd hj (Finset.notMem_empty j)
  · exact ⟨fun h' => hcare.1 (hmk h'), hcare.2⟩

/-- The stragglers are counted. -/
theorem Watch.newCount (h : Watch s) (hi : Inv s ph fl) {n : ℕ} {found : Finset ι}
    (hq : s.pc i = .newCount n found) :
    Watch ({ s with nstragglers := found.card }.goto i (.newFlag n found)) := by
  have hm := hi.mutex_of hq rfl
  have hrole := (hi.thread i).role
  have hseen := h.seen i
  have hcare := h.care i
  rw [hq] at hrole hseen hcare
  obtain ⟨-, -, rfl⟩ := hrole
  have hnobody : ∀ j, ¬ Owes s j := by
    obtain ⟨owing, hcard, hmem⟩ := h.count
    rw [hi.shared.phase.1, Finset.card_eq_zero] at hcard
    intro j hj
    have := (hmem j).mpr hj
    rw [hcard] at this
    exact absurd this (Finset.notMem_empty j)
  have hself := State.goto_pc { s with nstragglers := found.card } i (.newFlag n found)
  have hpc : ∀ j, j ≠ i → ({ s with nstragglers := found.card }.goto i (.newFlag n found)).pc j =
      s.pc j := fun j hj => update_of_ne hj _ _
  have hmarked : ∀ j, Marked ({ s with nstragglers := found.card }.goto i (.newFlag n found)) j →
      Marked s j := by
    rintro j (hflag | ⟨k, hk⟩)
    · exact .inl hflag
    · by_cases hki : k = i
      · rw [hki, hself] at hk
        exact .inr ⟨i, by rw [hq]; exact hk⟩
      · rw [hpc k hki] at hk
        exact .inr ⟨k, hk⟩
  refine h.change hi hself hpc (fun j _ => ?_) ?_ (h.ends_of hpc (hq ▸ rfl) rfl rfl) (h.le i) ?_
    h.ready (h.taken_of hself hpc rfl rfl) ?_
  · exact ⟨rfl, rfl, id, fun h' => .inl (hmarked j h'), le_rfl, fun _ _ => rfl, Iff.rfl⟩
  · refine seen_of_mutex hi hm hpc ?_
    rw [hself]
    exact hseen
  · refine ⟨found, rfl, fun j => ⟨fun hj => .inr (.inr ⟨i, by rw [hself]; exact hj⟩), ?_⟩⟩
    rintro (hflag | howe | ⟨k, hk⟩)
    · exact absurd (.inl hflag) (hnobody j)
    · by_cases hji : j = i
      · rw [hji, hself] at howe
        cases howe
      · rw [hpc j hji] at howe
        exact absurd (.inr (.inl howe)) (hnobody j)
    · by_cases hki : k = i
      · rw [hki, hself] at hk
        exact hk
      · rw [hpc k hki] at hk
        exact absurd (.inr (.inr ⟨k, hk⟩)) (hnobody j)
  · exact ⟨fun h' => hcare.1 (hmarked i h'), hcare.2⟩

/-- A straggler is flagged. -/
theorem Watch.newFlag (h : Watch s) (hi : Inv s ph fl) {n : ℕ} {todo : Finset ι} {pick : ι}
    (hq : s.pc i = .newFlag n todo) (hpick : pick ∈ todo) :
    Watch ((s.setStraggler pick true).goto i (.newFlag n (todo.erase pick))) := by
  have hm := hi.mutex_of hq rfl
  have hseen := h.seen i
  have hcare := h.care i
  rw [hq] at hseen hcare
  generalize hs' : (s.setStraggler pick true).goto i (.newFlag n (todo.erase pick)) = s'
  have hself : s'.pc i = .newFlag n (todo.erase pick) := hs' ▸ State.goto_pc _ i _
  have hpc : ∀ j, j ≠ i → s'.pc j = s.pc j := fun j hj => hs' ▸ update_of_ne hj _ _
  have hctx : ∀ t, (s'.ctx t).beginEpoch = (s.ctx t).beginEpoch ∧
      (s'.ctx t).endEpoch = (s.ctx t).endEpoch ∧
      ((s'.ctx t).straggler = true ↔ (s.ctx t).straggler = true ∨ t = pick) := by
    intro t
    subst hs'
    change ((update s.ctx pick { s.ctx pick with straggler := true }) t).beginEpoch = _ ∧
      ((update s.ctx pick { s.ctx pick with straggler := true }) t).endEpoch = _ ∧
      (((update s.ctx pick { s.ctx pick with straggler := true }) t).straggler = true ↔ _)
    by_cases ht : t = pick
    · rw [ht, update_self]
      simp
    · rw [update_of_ne ht]
      simp [ht]
  -- the mark of the context moves to its flag
  have hset : ∀ (f : Pc ι → Finset ι), (∀ n todo, f (.newFlag n todo) = todo) → ∀ j,
      ((s'.ctx j).straggler = true ∨ ∃ k, j ∈ f (s'.pc k)) ↔
        (s.ctx j).straggler = true ∨ ∃ k, j ∈ f (s.pc k) := by
    intro f hf j
    rw [(hctx j).2.2]
    constructor
    · rintro ((hflag | rfl) | ⟨k, hk⟩)
      · exact .inl hflag
      · exact .inr ⟨i, by rw [hq, hf]; exact hpick⟩
      · by_cases hki : k = i
        · rw [hki, hself, hf] at hk
          exact .inr ⟨i, by rw [hq, hf]; exact Finset.mem_of_mem_erase hk⟩
        · rw [hpc k hki] at hk
          exact .inr ⟨k, hk⟩
    · rintro (hflag | ⟨k, hk⟩)
      · exact .inl (.inl hflag)
      · by_cases hki : k = i
        · rw [hki, hq, hf] at hk
          by_cases hj : j = pick
          · exact .inl (.inr hj)
          · exact .inr ⟨i, by rw [hself, hf]; exact Finset.mem_erase.mpr ⟨hj, hk⟩⟩
        · exact .inr ⟨k, by rw [hpc k hki]; exact hk⟩
  have hmarked : ∀ j, Marked s' j ↔ Marked s j := hset (fun p => p.view.marks) fun _ _ => rfl
  have hactive : (s'.ctx i).active ↔ (s.ctx i).active := by
    rw [Ctx.active, Ctx.active, (hctx i).1, (hctx i).2.1]
  have hrest : s'.beginEpoch = s.beginEpoch ∧ s'.endEpoch = s.endEpoch ∧
      s'.nstragglers = s.nstragglers ∧ s'.contexts = s.contexts ∧ s'.cold = s.cold ∧
      s'.ready = s.ready := by
    subst hs'
    exact ⟨rfl, rfl, rfl, rfl, rfl, rfl⟩
  obtain ⟨hb, he, hn, hc, hcold, hready⟩ := hrest
  refine h.change hi hself hpc (fun j _ => ?_) ?_ (h.ends_of hpc (hq ▸ rfl) hb he) ?_
    (h.count_of hn fun j => ?_) (by rw [hready, hcold]; exact h.ready)
    (h.taken_of hself hpc rfl hcold) ?_
  · exact ⟨(hctx j).1, (hctx j).2.1, fun hf => (hctx j).2.2.mpr (.inl hf),
      fun h' => .inl ((hmarked j).mp h'), hb.ge, fun _ _ => hb, by rw [hc]⟩
  · refine seen_of_mutex hi hm hpc ?_
    rw [hself]
    intro m hn
    obtain ⟨hbegin, hend, hmarks, -⟩ := hseen m hn
    refine ⟨hbegin.trans hb.symm, he ▸ hend, fun t ht => ?_, fun t b hr => by cases hr⟩
    rw [(hctx t).1]
    exact hmarks t (Finset.mem_of_mem_erase ht)
  · rw [(hctx i).1, hb]
    exact h.le i
  · have howes : (s'.pc j).view.owes = (s.pc j).view.owes := by
      by_cases hj : j = i
      · rw [hj, hself, hq]
        rfl
      · rw [hpc j hj]
    rw [Owes, Owes, howes, or_left_comm, or_left_comm (a := (s.ctx j).straggler = true)]
    exact or_congr_right (hset (fun p => p.view.flags) (fun _ _ => rfl) j)
  · change Settled s' i
    rw [Settled, hactive, hc]
    exact ⟨fun h' => hcare.1 ((hmarked i).mp h'), hcare.2⟩

theorem Watch.newScanEnd (h : Watch s) (hi : Inv s ph fl) {n b : ℕ} {c : Option ℕ}
    {todo found : Finset ι} {t : ι} (hq : s.pc i = .newScanEnd n c todo found t b) :
    Watch (s.goto i (.newScan n c todo
      (if b = n - 1 ∧ (s.ctx t).endEpoch < b then insert t found else found))) := by
  have hm := hi.mutex_of hq rfl
  have hseen := h.seen i
  have hcare := h.care i
  rw [hq] at hseen hcare
  obtain ⟨hbegin, hend, hmarks, hreading⟩ := hseen n rfl
  have hb : b ≤ (s.ctx t).beginEpoch := hreading t b rfl
  split
  · next hfound =>
    refine h.look hi hq hm rfl rfl rfl rfl (fun x hx => ?_) (fun m hm' => ?_) hcare id
    · rcases Finset.mem_insert.mp hx with rfl | hx
      · exact .inr ⟨hfound.2.trans_le hb, by omega⟩
      · exact .inl hx
    · cases hm'
      refine ⟨hbegin, hend, fun x hx => ?_, fun x y hr => by cases hr⟩
      rcases Finset.mem_insert.mp hx with rfl | hx
      · omega
      · exact hmarks x hx
  · refine h.look hi hq hm rfl rfl rfl rfl (fun x hx => .inl hx) (fun m hm' => ?_) hcare id
    cases hm'
    exact ⟨hbegin, hend, hmarks, fun x y hr => by cases hr⟩

theorem Watch.newScan (h : Watch s) (hi : Inv s ph fl) {n : ℕ} {c c' : Option ℕ}
    {todo todo' found : Finset ι} {t : ι} (hq : s.pc i = .newScan n c todo found) :
    Watch (s.goto i (.newScanEnd n c' todo' found t (s.ctx t).beginEpoch)) := by
  have hm := hi.mutex_of hq rfl
  have hseen := h.seen i
  have hcare := h.care i
  rw [hq] at hseen hcare
  refine h.look hi hq hm rfl rfl rfl rfl (fun x hx => .inl hx) (fun m hm' => ?_) hcare id
  obtain ⟨hbegin, hend, hmarks, -⟩ := hseen m hm'
  refine ⟨hbegin, hend, hmarks, fun x y hr => ?_⟩
  cases hr
  exact le_rfl

end Steps

end Epoch

end PreemptDB
