/-
Stragglers that nobody waits for.

`context_exit` returns without looking at its flag if the epoch change that would
flag it has not stored `end` yet.  A scan that has already found the context then
counts it as a straggler, and the change does not end.  If no context leaves in
this way, a manager with no active context has no epoch change under way.

* `Unmarked` — no context leaves in this way;
* `Watch.step`, `run_watch` — the invariant along such runs;
* `quiet_reclaimed` — all is reclaimed when all contexts have left;
* `left_behind` — a context that is flagged after it has left.
-/
import PreemptDB.EpochOrder
import PreemptDB.EpochWatch

namespace PreemptDB

open Function StepRun

namespace Epoch

variable {ι : Type*} {i j : ι} {s s' : State ι} {ph : Phase ι} {fl : ℕ}

/-- The early return of `context_exit`. -/
def Pc.returns : Pc ι → Bool
  | .exitCheck _ => true
  | _ => false

section Steps

variable [DecidableEq ι]

instance [Fintype ι] (s : State ι) (i : ι) : Decidable (Marked s i) :=
  inferInstanceAs (Decidable (_ ∨ _))

/-- A context does not leave while it is or will be flagged, unless it looks at its flag. -/
def Unmarked (s : State ι) : Act ι → Prop
  | .call _ _ => True
  | .step i _ _ =>
    (s.pc i).returns = true → s.endEpoch < (s.ctx i).beginEpoch + 2 → ¬ Marked s i

instance [Fintype ι] (s : State ι) : DecidablePred (Unmarked s)
  | .call _ _ => isTrue trivial
  | .step _ _ _ => inferInstanceAs (Decidable (_ → _))

/-- The epoch that was read is current, or one behind, or the context is late. -/
theorem Watch.stepEnterCheck (h : Watch s) (hi : Inv s ph fl) {tmp : ℕ}
    (hq : s.pc i = .enterCheck tmp)
    (hs : s.stepContext i (.enterCheck tmp) = some s') : Watch s' := by
  have hrole := (hi.thread i).role
  have hcare := h.care i
  rw [hq] at hrole hcare
  obtain ⟨-, -, -, hbegin⟩ :
    i ∈ s.contexts ∧ Aim s fl tmp ∧ (s.ctx i).endEpoch = 0 ∧ (s.ctx i).beginEpoch = tmp := hrole
  rw [State.stepContext] at hs
  split at hs
  · cases hs
    exact h.goto hi hq rfl rfl rfl fun _ => h.le i
  · next hlate =>
    cases hs
    by_cases htwo : s.beginEpoch - tmp = 2
    · rw [decide_eq_true htwo]
      refine h.goto hi hq rfl rfl rfl fun _ => ⟨h.le i, .inr ?_⟩
      change (s.ctx i).beginEpoch + 2 ≤ s.beginEpoch
      omega
    · rw [decide_eq_false htwo]
      refine h.goto hi hq rfl rfl rfl fun hmk => ⟨fun hm => ?_, ?_, le_rfl⟩
      · have := hcare.2 (hmk hm)
        omega
      · change (s.ctx i).beginEpoch + 3 ≤ s.beginEpoch
        omega

/-- A late context leaves at once; if it may have been found, it looks at its flag. -/
theorem Watch.stepEnterLate (h : Watch s) (hi : Inv s ph fl) {tmp2 : ℕ} {check : Bool}
    (hq : s.pc i = .enterLate tmp2 check)
    (hs : s.stepContext i (.enterLate tmp2 check) = some s') : Watch s' := by
  have hcare := h.care i
  rw [hq] at hcare
  cases hs
  cases check with
  | true =>
    rw [if_pos rfl]
    refine h.write hi hq rfl rfl rfl rfl le_rfl (h.le i) fun s' _ hctx _ => ?_
    rw [Care, hctx]
    exact ⟨not_lt.mpr hcare.1, hcare.2⟩
  | false =>
    rw [if_neg Bool.false_ne_true]
    refine h.write hi hq rfl rfl rfl rfl le_rfl (h.le i) fun s' hmk hctx _ => ⟨fun hm => ?_, ?_⟩
    · exact hcare.1 (hmk hm)
    · rw [hctx]
      have hle : (s.ctx i).beginEpoch + 3 ≤ tmp2 := hcare.2.1
      exact not_lt.mpr (by change (s.ctx i).beginEpoch ≤ tmp2; omega)

theorem Watch.stepEnterFlag (h : Watch s) (hi : Inv s ph fl) {tmp tmp2 : ℕ}
    (hq : s.pc i = .enterFlag tmp tmp2)
    (hs : s.stepContext i (.enterFlag tmp tmp2) = some s') : Watch s' := by
  have hrole := (hi.thread i).role
  have hcare := h.care i
  rw [hq] at hrole hcare
  have hinside : Inside s ph fl i tmp := hrole
  rw [State.stepContext] at hs
  split at hs
  · next hflag =>
    cases hs
    exact h.goto hi hq rfl rfl rfl fun _ => ⟨hcare, .inl hflag⟩
  · cases hs
    refine h.gotoRegion hi hq rfl rfl rfl fun _ =>
      ⟨fun _ => ?_, fun hne => absurd hinside.mem hne⟩
    change (s.ctx i).endEpoch < (s.ctx i).beginEpoch
    rw [hinside.begin_eq, hinside.end_eq]
    exact hinside.aim.pos

theorem Watch.stepCheckEnd (h : Watch s) (hi : Inv s ph fl) {tmp : ℕ} {k : Cont}
    (hq : s.pc i = .checkEnd tmp k)
    (hs : s.stepContext i (.checkEnd tmp k) = some s') : Watch s' := by
  have hcare := h.care i
  rw [hq] at hcare
  cases hs
  split
  · exact h.goto hi hq rfl rfl rfl fun _ => hcare.1
  · next hend =>
    exact h.goto hi hq rfl rfl rfl fun hmk =>
      ⟨hcare.1, fun hm => h.flagged_of_marked hcare.2 hend (hmk hm)⟩

/-- Once the lock is free, nobody is about to flag the context. -/
theorem Watch.stepCheckLock (h : Watch s) (hi : Inv s ph fl) {k : Cont}
    (hq : s.pc i = .checkLock k) (hs : s.stepContext i (.checkLock k) = some s') : Watch s' := by
  have hcare := h.care i
  rw [hq] at hcare
  refine h.lock (p := .checkUnlock k) hi hq rfl rfl rfl (fun hfree s' hctx _ hmk => ?_) hs
  rw [Care, hctx]
  refine ⟨hcare, fun hm => ?_⟩
  -- nobody opens an epoch
  rcases hmk hm with hflag | ⟨j, hj⟩
  · exact hflag
  · obtain ⟨n, hn⟩ := Pc.opening_of_marks hj
    have hmutex := (hi.thread j).mutex.mpr (Pc.critical_of_opening hn)
    cases hfree.symm.trans hmutex

theorem Watch.stepCheckFlag (h : Watch s) (hi : Inv s ph fl) {k : Cont}
    (hq : s.pc i = .checkFlag k) (hs : s.stepContext i (.checkFlag k) = some s') : Watch s' := by
  have hrole := (hi.thread i).role
  have hcare := h.care i
  rw [hq] at hrole hcare
  rw [State.stepContext] at hs
  split at hs
  · cases hs
    exact h.goto hi hq rfl rfl rfl fun _ => hcare.1
  · next hflag =>
    cases hs
    exact h.resume hi hq rfl rfl (fun hm => hflag (hcare.2 hm)) hrole.1 fun _ => hcare.1

/-- A straggler has ended; the last one goes on to `global_quiesce`. -/
theorem Watch.stepEnded (h : Watch s) (hi : Inv s ph fl) {k : Cont}
    (hq : s.pc i = .ended k) (hs : s.stepContext i (.ended k) = some s') : Watch s' := by
  have hrole := (hi.thread i).role
  have hcare := h.care i
  have hp : Pending s ph i := by
    rw [hq] at hrole
    exact hrole.1
  rw [hq] at hcare
  cases hs
  split
  · refine h.ended hi hq (fun j hj => update_of_ne hj _ _) ?_ ?_ rfl rfl rfl rfl rfl rfl
      rfl fun _ => ?_ <;> rw [State.goto_pc]
    · rfl
    · rfl
    · exact hcare
  · obtain ⟨hb, hc, hr, hn, -, hcold, hctx⟩ :=
      State.resume_fields { s with nstragglers := s.nstragglers - 1 } i k
    obtain ⟨hview, htaken, hpc, he⟩ :=
      State.resume_view { s with nstragglers := s.nstragglers - 1 } i k
    exact h.ended hi hq hpc hview htaken hctx hb he hn hc hcold hr fun hm =>
      care_resume hm hp.mem hcare

/-- What was cold is reclaimed. -/
theorem Watch.stepQuiesceStore (h : Watch s) (hi : Inv s ph fl) {cookie : Option ℕ} {k : Cont}
    (hq : s.pc i = .quiesceStore cookie k)
    (hs : s.stepContext i (.quiesceStore cookie k) = some s') : Watch s' := by
  have hcare := h.care i
  rw [hq] at hcare
  cases hs
  rcases cookie with _ | n
  all_goals
    refine h.quiet hi ⟨fun j hj => update_of_ne hj _ _, by rw [State.goto_pc, hq]; rfl,
      fun _ _ => rfl, rfl, le_rfl, rfl, rfl, rfl, fun _ _ => Iff.rfl⟩ (hq ▸ rfl) (h.le i)
      (.inr rfl) .inl (fun _ => .inr rfl) ?_
    rw [State.goto_pc]
    exact hcare

theorem Watch.stepQuiesceReady (h : Watch s) (hi : Inv s ph fl) {k : Cont}
    (hq : s.pc i = .quiesceReady k)
    (hs : s.stepContext i (.quiesceReady k) = some s') : Watch s' := by
  have hrole := (hi.thread i).role
  have hcare := h.care i
  have hcold := h.taken i (by rw [hq]; rfl)
  rw [hq] at hrole hcare
  cases hs
  obtain ⟨hmem, rfl, -, -⟩ := hrole
  obtain ⟨hb, hc, hr, hn, -, hcold', hctx⟩ := State.resume_fields { s with ready := true } i k
  obtain ⟨hview, htaken, hpc, he⟩ := State.resume_view { s with ready := true } i k
  have quiet : Quiet i s ({ s with ready := true }.resume i k) :=
    ⟨hpc, by rw [hview, hq]; rfl, fun _ _ => by rw [hctx], by rw [hctx], by rw [hctx], hb, he, hn,
      fun _ _ => by rw [hc]⟩
  refine h.quiet hi quiet (hq ▸ rfl) (by rw [hctx]; exact h.le i) (.inl hcold')
    (fun _ => .inr (hcold'.trans hcold)) (fun _ => .inr (hcold'.trans hcold)) ?_
  exact care_resume (fun hm => hi.not_marked_closing ((quiet.marked i).mp hm)) hmem hcare

/-- The context has left; it looks at its flag if a change may be under way. -/
theorem Watch.stepExitEnd (h : Watch s) (hi : Inv s ph fl) {tmp : ℕ} {k : Cont}
    (hq : s.pc i = .exitEnd tmp k)
    (hs : s.stepContext i (.exitEnd tmp k) = some s') : Watch s' := by
  have hcare := h.care i
  rw [hq] at hcare
  cases hs
  split
  · refine h.write hi hq rfl rfl rfl rfl le_rfl (h.le i) fun s' _ hctx _ => ?_
    rw [Care, hctx]
    exact not_lt.mpr hcare
  · next hlt =>
    refine h.write hi hq rfl rfl rfl rfl le_rfl (h.le i) fun s' _ hctx _ => ?_
    rw [Care, hctx]
    exact ⟨not_lt.mpr hcare, .inr (not_lt.mp hlt)⟩

theorem Watch.stepContext (h : Watch s) (hi : Inv s ph fl)
    (hok : (s.pc i).returns = true → s.endEpoch < (s.ctx i).beginEpoch + 2 → ¬ Marked s i)
    (hs : s.stepContext i (s.pc i) = some s') : Watch s' := by
  have hrole := (hi.thread i).role
  have hcare := h.care i
  generalize hq : s.pc i = q at hs hrole hcare
  cases q with
  | enterRead =>
    cases hs
    exact h.goto hi hq rfl rfl rfl fun hmk => ⟨⟨hcare.1 ∘ hmk, hcare.2⟩, h.le i⟩
  | enterEnd tmp =>
    cases hs
    obtain ⟨hgone, hle⟩ := hcare
    refine h.write hi hq rfl rfl rfl rfl le_rfl (h.le i) fun s' hmk hctx _ => ?_
    exact ⟨by rw [hctx]; exact hle, fun hm => absurd (hmk hm) hgone.1⟩
  | enterBegin tmp =>
    cases hs
    refine h.write hi hq rfl rfl rfl rfl hcare.1 hrole.2.1.le fun s' hmk hctx hb => ?_
    exact ⟨by rw [hctx], fun hm => hb ▸ hcare.2 (hmk hm)⟩
  | enterCheck tmp =>
    exact h.stepEnterCheck hi hq hs
  | enterLate tmp2 check =>
    exact h.stepEnterLate hi hq hs
  | enterFlag tmp tmp2 =>
    exact h.stepEnterFlag hi hq hs
  | checkEnd tmp k =>
    exact h.stepCheckEnd hi hq hs
  | checkLock k =>
    exact h.stepCheckLock hi hq hs
  | checkUnlock k =>
    cases hs
    exact h.unlock hi hq rfl rfl rfl fun hmk => ⟨hcare.1, fun hm => hcare.2 (hmk hm)⟩
  | checkFlag k =>
    exact h.stepCheckFlag hi hq hs
  | checkClear k =>
    cases hs
    exact h.clear hi hq rfl rfl rfl rfl hrole.2.2 fun s' ha _ hact => hcare (ha hact)
  | ended k =>
    exact h.stepEnded hi hq hs
  | quiesceSwap k =>
    cases hs
    exact h.goto hi hq rfl rfl rfl fun _ => hcare
  | quiesceStore cookie k =>
    exact h.stepQuiesceStore hi hq hs
  | reclaimed n k =>
    cases hs
    exact h.move hi hq rfl rfl rfl rfl rfl (fun _ _ => Iff.rfl) rfl id rfl rfl (.inr rfl)
      fun _ => hcare
  | quiesceReady k =>
    exact h.stepQuiesceReady hi hq hs
  | moveClear =>
    cases hs
    exact h.clear hi hq rfl rfl rfl rfl hrole.2 fun _ _ => trivial
  | moveEnd =>
    cases hs
    exact h.write hi hq rfl rfl rfl rfl le_rfl (h.le i) fun _ _ _ _ => trivial
  | moveRead =>
    cases hs
    exact h.goto hi hq rfl rfl rfl fun _ => trivial
  | moveBegin tmp =>
    cases hs
    obtain ⟨-, -, rfl⟩ := hrole
    refine h.write hi hq rfl rfl rfl rfl (h.le i) le_rfl fun _ _ _ _ hk => ?_
    rcases hk with hk | hk <;> cases hk
  | exitRead k =>
    cases hs
    exact h.goto hi hq rfl rfl rfl fun _ => h.le i
  | exitEnd tmp k =>
    exact h.stepExitEnd hi hq hs
  | exitCheck k =>
    have hmarked := hok (by rw [hq]; rfl)
    cases hs
    split
    · next hlt => exact h.resume hi hq rfl rfl (hmarked hlt) hrole.1 fun _ => hcare
    · next hlt =>
      exact h.goto hi hq rfl rfl rfl fun _ => ⟨hcare, .inr (not_lt.mp hlt)⟩
  | _ =>
    cases hs

theorem Watch.stepRegistry (h : Watch s) (hi : Inv s ph fl) {cookie : Bool}
    (hs : s.stepRegistry i cookie (s.pc i) = some s') : Watch s' := by
  have hcare := h.care i
  generalize hq : s.pc i = q at hs hcare
  cases q with
  | initLock =>
    refine h.lock (p := .initInsert) hi hq rfl rfl rfl (fun _ s' hctx hc hmk => ?_) hs
    change Settled s' i
    rw [Settled, hctx, hc]
    exact ⟨hcare.1 ∘ hmk, hcare.2⟩
  | initInsert =>
    cases hs
    refine h.move hi hq rfl rfl rfl rfl rfl (fun j hj => ?_) rfl id rfl rfl (.inl rfl)
      fun hmk => ⟨hcare.1 ∘ hmk, fun hne => ?_⟩
    · exact ⟨fun hm => (Finset.mem_insert.mp hm).resolve_left hj, Finset.mem_insert_of_mem⟩
    · exact absurd (Finset.mem_insert_self i s.contexts) hne
  | initUnlock | finiUnlock _ =>
    cases hs
    exact h.unlock hi hq rfl rfl rfl fun hmk => ⟨hcare.1 ∘ hmk, hcare.2⟩
  | finiLock =>
    refine h.lock (p := .finiErase) hi hq rfl rfl rfl (fun _ s' hctx _ hmk => ?_) hs
    exact ⟨hcare.1 ∘ hmk, by rw [hctx]; exact hcare.2⟩
  | finiErase =>
    cases hs
    have herase : ∀ j, j ≠ i → (j ∈ s.contexts.erase i ↔ j ∈ s.contexts) := fun j hj =>
      ⟨Finset.mem_of_mem_erase, fun hm => Finset.mem_erase.mpr ⟨hj, hm⟩⟩
    split
    · exact h.move hi hq rfl rfl rfl rfl rfl herase rfl id rfl rfl (.inl rfl)
        fun hmk => ⟨hcare.1 ∘ hmk, hcare.2⟩
    · exact h.move hi hq rfl rfl rfl rfl rfl herase rfl id rfl rfl (.inl rfl)
        fun hmk => ⟨hcare.1 ∘ hmk, hcare.2⟩
  | finiRead | finiCookie _ | finiSwap _ | finiCall _ _ =>
    cases hs
    exact h.goto hi hq rfl rfl rfl fun hmk => ⟨hcare.1 ∘ hmk, hcare.2⟩
  | finiEnd n =>
    cases hs
    exact h.finiEnd hi hq
  | finiBegin n =>
    cases hs
    exact h.finiBegin hi hq
  | finiStore active cooling =>
    cases hs
    exact h.move hi hq rfl rfl rfl rfl rfl (fun _ _ => Iff.rfl) rfl id rfl rfl
      (.inl rfl) fun hmk => ⟨hcare.1 ∘ hmk, hcare.2⟩
  | finiReclaim cookies =>
    cases cookies with
    | nil =>
      cases hs
      exact h.goto hi hq rfl rfl rfl fun hmk =>
        ⟨fun hm => absurd (hmk hm) hcare.1, fun _ => hcare.2⟩
    | cons n cookies =>
      cases hs
      exact h.move hi hq rfl rfl rfl rfl rfl (fun _ _ => Iff.rfl) rfl id rfl rfl
        (.inl rfl) fun hmk => ⟨hcare.1 ∘ hmk, hcare.2⟩
  | _ =>
    cases hs

theorem Watch.stepNew (h : Watch s) (hi : Inv s ph fl) {pick : ι} {cookie : Bool}
    (hs : s.stepNew i pick cookie (s.pc i) = some s') : Watch s' := by
  have hrole := (hi.thread i).role
  have hcare := h.care i
  generalize hq : s.pc i = q at hs hrole hcare
  cases q with
  | newLock =>
    refine h.lock (p := .newReady) hi hq rfl rfl rfl (fun _ s' hctx hc hmk => ?_) hs
    change Settled s' i
    rw [Settled, hctx, hc]
    exact ⟨hcare.1 ∘ hmk, hcare.2⟩
  | newReady =>
    cases hs
    split <;> exact h.goto hi hq rfl rfl rfl fun hmk => ⟨hcare.1 ∘ hmk, hcare.2⟩
  | newRead | newEnded _ | newCooling _ _ _ =>
    cases hs
    exact h.goto hi hq rfl rfl rfl fun hmk => ⟨hcare.1 ∘ hmk, hcare.2⟩
  | newBegin n =>
    cases hs
    exact h.newBegin hi hq
  | newUnready n =>
    cases hs
    exact h.move hi hq rfl rfl rfl rfl rfl (fun _ _ => Iff.rfl) rfl (fun h => by cases h) rfl rfl
      (.inl rfl) fun hmk => ⟨hcare.1 ∘ hmk, hcare.2⟩
  | newScan n c todo found =>
    rw [State.stepNew] at hs
    split at hs
    · cases hs
      exact h.goto hi hq rfl rfl rfl fun hmk => ⟨hcare.1 ∘ hmk, hcare.2⟩
    · obtain ⟨-, hs⟩ := Option.ite_none_right_eq_some.mp hs
      cases hs
      exact h.newScan hi hq
  | newScanEnd n c todo found t b =>
    cases hs
    exact h.newScanEnd hi hq
  | newCold n c found cooling =>
    cases hs
    obtain ⟨-, -, rfl, hready, -, -⟩ := hrole
    have hself := State.goto_pc { s with cold := cooling } i (.newCookie n c found)
    have hpc : ∀ j, j ≠ i →
        ({ s with cold := cooling }.goto i (.newCookie n c found)).pc j = s.pc j :=
      fun j hj => update_of_ne hj _ _
    have quiet : Quiet i s ({ s with cold := cooling }.goto i (.newCookie n c found)) :=
      ⟨hpc, by rw [hself, hq]; rfl, fun _ _ => rfl, rfl, le_rfl, rfl, rfl, rfl, fun _ _ => Iff.rfl⟩
    refine h.of_quiet hi quiet (hq ▸ rfl) (h.le i) (fun hr => ?_) (fun j hj => ?_) ?_
    · exact absurd (hready.symm.trans hr) Bool.false_ne_true
    · -- a thread that reclaims would be in another phase
      have hne : j ≠ i := by
        rintro rfl
        rw [hself] at hj
        cases hj
      rw [hpc j hne] at hj
      have hrole' := (hi.thread j).role
      cases hqj : s.pc j <;> rw [hqj] at hj hrole' <;>
        first | exact absurd hj Bool.false_ne_true | cases hrole'.2.1
    · rw [hself]
      exact ⟨fun hm => hcare.1 ((quiet.marked i).mp hm), hcare.2⟩
  | newCookie n c found =>
    cases hs
    exact h.move hi hq rfl rfl rfl rfl rfl (fun _ _ => Iff.rfl) rfl id rfl rfl
      (.inl rfl) fun hmk => ⟨hcare.1 ∘ hmk, hcare.2⟩
  | newCount n found =>
    rw [State.stepNew] at hs
    split at hs
    · next hempty =>
      cases hs
      subst hempty
      exact h.goto hi hq rfl rfl rfl fun hmk => ⟨hcare.1 ∘ hmk, hcare.2⟩
    · cases hs
      exact h.newCount hi hq
  | newFlag n todo =>
    rw [State.stepNew] at hs
    split at hs
    · next hempty =>
      cases hs
      subst hempty
      exact h.goto hi hq rfl rfl rfl fun hmk => ⟨hcare.1 ∘ hmk, hcare.2⟩
    · obtain ⟨hpick, hs⟩ := Option.ite_none_right_eq_some.mp hs
      cases hs
      exact h.newFlag hi hq hpick
  | newEnd n direct =>
    cases hs
    exact h.newEnd hi hq
  | newUnlock ok direct =>
    cases hs
    split
    · refine h.move hi hq rfl rfl rfl rfl rfl (fun _ _ => Iff.rfl) rfl id rfl rfl
        (.inl rfl) fun _ hk => ?_
      rcases hk with hk | hk <;> cases hk
    · exact h.move hi hq rfl rfl rfl rfl rfl (fun _ _ => Iff.rfl) rfl id rfl rfl
        (.inl rfl) fun hmk => ⟨hcare.1 ∘ hmk, hcare.2⟩
  | _ =>
    cases hs

theorem Watch.call (h : Watch s) (hi : Inv s ph fl) {f : Call} (hq : s.pc i = .idle)
    (hs : s.call i f = some s') : Watch s' := by
  have hcare := h.care i
  rw [hq] at hcare
  cases f with
  | enter =>
    obtain ⟨hpre, hs⟩ := Option.ite_none_right_eq_some.mp hs
    cases hs
    exact h.goto hi hq rfl rfl rfl fun hmk => ⟨fun hm => hpre.2 (hcare.1 (hmk hm)), hpre.2⟩
  | exit =>
    obtain ⟨-, hs⟩ := Option.ite_none_right_eq_some.mp hs
    cases hs
    exact h.gotoRegion hi hq rfl rfl rfl fun _ => trivial
  | quiesce =>
    obtain ⟨-, hs⟩ := Option.ite_none_right_eq_some.mp hs
    split at hs
    · cases hs
      exact h.gotoRegion hi hq rfl rfl rfl fun _ => trivial
    · cases hs
      exact h
  | init | newEpoch =>
    obtain ⟨-, hs⟩ := Option.ite_none_right_eq_some.mp hs
    cases hs
    exact h.goto hi hq rfl rfl rfl fun hmk => ⟨hcare.1 ∘ hmk, hcare.2⟩
  | fini =>
    obtain ⟨-, hs⟩ := Option.ite_none_right_eq_some.mp hs
    split at hs
    · cases hs
      exact h.gotoRegion hi hq rfl rfl rfl fun _ => trivial
    · next hne =>
      cases hs
      exact h.goto hi hq rfl rfl rfl fun hmk => ⟨fun hm => hne (hcare.1 (hmk hm)), hne⟩

theorem Watch.step (h : Watch s) (hi : Inv s ph fl) {x : Act ι} (hok : Unmarked s x)
    (hs : s.step x = some s') : Watch s' := by
  cases x with
  | call i f =>
    rw [State.step] at hs
    split at hs
    · next hq => exact h.call hi hq hs
    · cases hs
  | step i pick cookie =>
    rcases Option.or_eq_some_iff.mp hs with hs | ⟨-, hs⟩
    · exact h.stepContext hi hok hs
    rcases Option.or_eq_some_iff.mp hs with hs | ⟨-, hs⟩
    · exact h.stepRegistry hi hs
    · exact h.stepNew hi hs

theorem run_watch {as : List (Act ι)} (hr : run State.step State.init as = some s)
    (hok : Along State.step Unmarked State.init as) :
    (∃ ph fl, Inv s ph fl) ∧ Watch s :=
  run_invariant_along (I := fun s => (∃ ph fl, Inv s ph fl) ∧ Watch s)
    (fun hok hs h => by
      obtain ⟨⟨ph, fl, hi⟩, hw⟩ := h
      exact ⟨hi.step hs, hw.step hi hok hs⟩)
    hok hr ⟨⟨.calm, 0, inv_init⟩, watch_init⟩

/-- No call is in progress, and no registered context is active. -/
structure AllGone (s : State ι) : Prop where
  idle : ∀ i, s.pc i = .idle
  inactive : ∀ i ∈ s.contexts, ¬ (s.ctx i).active

/-- The manager waits for nobody. -/
theorem Watch.nstragglers_eq_zero (h : Watch s) (hg : AllGone s) : s.nstragglers = 0 := by
  obtain ⟨owing, hcard, hmem⟩ := h.count
  rw [← hcard, Finset.card_eq_zero, Finset.eq_empty_iff_forall_notMem]
  intro i hi
  have hcare := h.care i
  rw [hg.idle i] at hcare
  have hflag : (s.ctx i).straggler = true := by
    rcases (hmem i).mp hi with hflag | howe | ⟨j, hj⟩
    · exact hflag
    · rw [hg.idle i] at howe
      cases howe
    · rw [hg.idle j] at hj
      exact absurd hj (Finset.notMem_empty i)
  have hactive := hcare.1 (.inl hflag)
  by_cases hin : i ∈ s.contexts
  · exact hg.inactive i hin hactive
  · exact hcare.2 hin hactive

/-- **No epoch is left stuck.**  Take a run in which no context leaves through the early return
of `context_exit` while it is or will be flagged as a straggler.  When all contexts have left and
no call is in progress, there are no stragglers, the cold epoch has been reclaimed, and the next
`new_epoch` opens an epoch. -/
theorem quiet_reclaimed {as : List (Act ι)} (hr : run State.step State.init as = some s)
    (hok : Along State.step Unmarked State.init as) (hg : AllGone s) :
    s.nstragglers = 0 ∧ s.ready = true ∧ s.cold = none ∧
      ∀ i ∈ s.contexts, ∀ cookie, ∃ s', run State.step s
        [.call i .newEpoch, .step i i cookie, .step i i cookie] = some s' ∧ s'.pc i = .newRead := by
  obtain ⟨⟨ph, fl, hi⟩, hw⟩ := run_watch hr hok
  have hn := hw.nstragglers_eq_zero hg
  have hready := hi.ready_of_idle hg.idle hn
  have hmutex := hi.mutex_of_idle hg.idle
  refine ⟨hn, hready, hw.ready hready, fun i hmem cookie => ?_⟩
  have hcall : s.step (.call i .newEpoch) = some (s.goto i .newLock) := by
    rw [State.step, hg.idle i]
    exact if_pos hmem
  have hlock : (s.goto i .newLock).step (.step i i cookie) =
      some ({ s.goto i .newLock with mutex := some i }.goto i .newReady) := by
    rw [State.step, State.goto_pc]
    exact if_pos hmutex
  have htest : ({ s.goto i .newLock with mutex := some i }.goto i .newReady).step
      (.step i i cookie) =
        some (({ s.goto i .newLock with mutex := some i }.goto i .newReady).goto i .newRead) := by
    rw [State.step, State.goto_pc]
    change some (State.goto _ i (if s.ready = true then .newRead else .newUnlock false false)) = _
    rw [if_pos hready]
  exact ⟨_, run_cons_eq_some.mpr ⟨_, hcall, run_cons_eq_some.mpr ⟨_, hlock,
    run_cons_eq_some.mpr ⟨_, htest, rfl⟩⟩⟩, State.goto_pc _ i _⟩

end Steps

/-- `n` steps of thread `i` that look at context `t`. -/
def stepsOf (i t : ι) (n : ℕ) : List (Act ι) := List.replicate n (.step i t true)

/-- Two contexts register, `true` enters, and `false` opens an epoch. -/
def enteredActs : List (Act Bool) :=
  runCall true .init 3 ++ runCall false .init 3 ++ runCall true .enter 5 ++
    [.call false .newEpoch] ++ stepsOf false true 8 ++ stepsOf false false 12

/-- `false` opens another epoch and finds `true`. -/
def foundActs : List (Act Bool) := .call false .newEpoch :: stepsOf false true 8

/-- `false` flags `true` and returns. -/
def flaggedActs : List (Act Bool) :=
  stepsOf false false 7 ++ stepsOf false true 1 ++ stepsOf false false 3

def Pc.isIdle : Pc ι → Bool
  | .idle => true
  | _ => false

theorem Pc.eq_idle {p : Pc ι} (h : p.isIdle = true) : p = .idle := by
  cases p <;> first | rfl | cases h

/-- What `AllGone` asks of two contexts. -/
def allGone (s : State Bool) : Bool :=
  (s.pc true).isIdle && (s.pc false).isIdle && !decide (s.ctx true).active &&
    !decide (s.ctx false).active

theorem AllGone.of_eq {s : State Bool} (h : allGone s = true) : AllGone s := by
  simp only [allGone, Bool.and_eq_true, Bool.not_eq_true', decide_eq_false_iff_not] at h
  obtain ⟨⟨⟨htrue, hfalse⟩, hctx⟩, hctx'⟩ := h
  refine ⟨fun i => ?_, fun i _ => ?_⟩ <;> cases i
  · exact Pc.eq_idle hfalse
  · exact Pc.eq_idle htrue
  · exact hctx'
  · exact hctx

/-- The straggler is flagged, leaves and reclaims the cold epoch. -/
theorem quiet_reclaimed_straggler :
    ∃ s, run State.step State.init
        (enteredActs ++ foundActs ++ flaggedActs ++ runCall true .exit 10) = some s ∧
      AllGone s ∧ s.log = [1] ∧ s.nstragglers = 0 ∧ s.ready = true ∧ s.cold = none := by
  have hrun : (run State.step State.init
      (enteredActs ++ foundActs ++ flaggedActs ++ runCall true .exit 10)).map
        (fun s => (allGone s, s.log)) = some (true, [1]) := by
    decide +kernel
  obtain ⟨s, hs, hval⟩ := Option.map_eq_some_iff.mp hrun
  obtain ⟨hgone, hlog⟩ := Prod.mk.inj hval
  have hg := AllGone.of_eq hgone
  obtain ⟨hn, hready, hcold, -⟩ := quiet_reclaimed hs (by decide +kernel) hg
  exact ⟨s, hs, hg, hlog, hn, hready, hcold⟩

/-- `true` reads the epoch, is found by the scan, stores its `end` and returns; then it is
counted and flagged. -/
theorem left_behind :
    ∃ s, run State.step State.init (enteredActs ++ runCall true .exit 1 ++ foundActs ++
        stepsOf true true 2 ++ flaggedActs) = some s ∧
      AllGone s ∧ s.nstragglers = 1 ∧ s.ready = false ∧ s.cold = some 1 := by
  have hrun : (run State.step State.init (enteredActs ++ runCall true .exit 1 ++
      foundActs ++ stepsOf true true 2 ++ flaggedActs)).map
        (fun s => (allGone s, s.nstragglers, s.ready, s.cold)) = some (true, 1, false, some 1) := by
    decide +kernel
  obtain ⟨s, hs, hval⟩ := Option.map_eq_some_iff.mp hrun
  simp only [Prod.mk.injEq] at hval
  exact ⟨s, hs, AllGone.of_eq hval.1, hval.2⟩

end Epoch

end PreemptDB
