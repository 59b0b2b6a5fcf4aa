/-
The epoch manager keeps its invariant.

* `Inv.stepRegistry` — `context_init` and `context_fini`;
* `Inv.stepNew` — `new_epoch`;
* `Inv.step`, `run_inv` — all steps and all runs;
* `Inv.lag` — the epoch is at most two ahead of a critical region;
* `Inv.reclaims` — nobody is in a region of an epoch that is reclaimed.
-/
import PreemptDB.EpochStep

namespace PreemptDB

open Function

namespace Epoch

variable {ι : Type*} {i : ι} {s s' : State ι} {ph ph' : Phase ι} {fl fl' : ℕ}

/-- Another thread is registered or removed. -/
theorem rely_contexts {j : ι} (hm : s.mutex ≠ some j) (hb : s'.beginEpoch = s.beginEpoch)
    (hr : s'.ready = s.ready) (hctx : s'.ctx j = s.ctx j)
    (hmem : j ∈ s'.contexts ↔ j ∈ s.contexts) : Rely j s ph fl s' ph fl where
  begin_eq := by rw [hctx]
  end_eq := by rw [hctx]
  mem := hmem
  le := hb.ge
  floor_le := le_rfl
  floor _ := rfl
  held h := absurd h hm
  token := id
  keeps _ := ⟨rfl, hb, fun h => hr.trans h⟩
  owes ho hu := ⟨ho, hu, by rw [hctx], fun _ => hb⟩
  flagged h h' := by rw [hctx, h] at h'; cases h'
  covered t hi := ⟨hb ▸ hi.lag, fun h => hi.covered (hb ▸ h)⟩

/-- The epoch is ended by the last context. -/
theorem rely_alone {j : ι} (hs : Shared s ph fl) (hempty : s.contexts = ∅)
    (hm : s.mutex ≠ some j) (hb : s'.beginEpoch = s.beginEpoch + 1)
    (hc : s'.contexts = s.contexts) (hctx : s'.ctx j = s.ctx j) :
    Rely j s ph fl s' ph (s.beginEpoch + 1) := by
  have hnot : j ∉ s.contexts := hempty ▸ Finset.notMem_empty j
  refine ⟨by rw [hctx], by rw [hctx], by rw [hc], hb ▸ Nat.le_succ _,
    hs.floor_le.trans (Nat.le_succ _), fun h => absurd h hnot, fun h => absurd h hm, id,
    fun h => absurd (hs.token_mem j h) hnot, fun ho hu => ⟨ho, hu, by rw [hctx],
      fun h => absurd h hnot⟩, fun h h' => ?_, fun t hi => absurd hi.mem hnot⟩
  rw [hctx, h] at h'
  cases h'

/-- A thread at a place without a part in the change does not have the token. -/
theorem Inv.token_ne (h : Inv s ph fl) {q : Pc ι} (hq : s.pc i = q) (hr : q.role.token = false) :
    ph.token ≠ some i := fun hk => by
  have htok := (h.thread i).token hk
  rw [hq, hr] at htok
  cases htok

section Registry

variable [DecidableEq ι]

/-- A step under the mutex, outside of every region and of a change of the epoch. -/
theorem Inv.register (h : Inv s ph fl) {q p : Pc ι} {t : State ι} (hq : s.pc i = q)
    (hcrit : q.critical = true) (hout : q.outside = true) (htoken : q.role.token = false)
    (hpc : t.pc = s.pc) (hregion : t.region = s.region) (hmutex : t.mutex = s.mutex)
    (hctx : t.ctx = s.ctx) (hp : p.critical = true) (hs : Shared (t.goto i p) ph fl')
    (hrole : Promise (t.goto i p) ph fl' i p.role)
    (hrely : ∀ j ≠ i, s.mutex ≠ some j → Rely j s ph fl (t.goto i p) ph fl') :
    Inv (t.goto i p) ph fl' := by
  have hm := h.mutex_of hq hcrit
  refine h.of_rely (i := i) ((Frame.of_eq hpc hregion hmutex).goto p) hs ?_ fun j hj =>
    hrely j hj fun hmj => hj (Option.some_inj.mp (hmj.symm.trans hm))
  refine thread_outside (State.goto_pc t i p) ⟨fun _ => hp, fun _ => hmutex.trans hm⟩ ?_ ?_
    (h.token_ne hq htoken) hrole
  · show t.region i = none
    rw [hregion]
    exact (h.thread i).outside (hq ▸ hout)
  · show (t.ctx i).straggler = true → _
    rw [hctx]
    exact (h.thread i).flagged

theorem Inv.stepRegistry (h : Inv s ph fl) {cookie : Bool}
    (hs : s.stepRegistry i cookie (s.pc i) = some s') : ∃ fl', Inv s' ph fl' := by
  have ht := h.thread i
  have hrole := ht.role
  generalize hq : s.pc i = q at hs hrole
  cases q with
  | initLock =>
    exact ⟨fl, h.lock (p := .initInsert) hq rfl rfl trivial hs⟩
  | initInsert =>
    cases hs
    refine ⟨fl, h.register hq rfl rfl rfl rfl rfl rfl rfl rfl ?_ (Finset.mem_insert_self _ _)
      fun j hj hm => rely_contexts hm rfl rfl rfl ?_⟩
    · exact ⟨h.shared.pos, h.shared.floor_le,
        fun p hp => Finset.mem_insert_of_mem (h.shared.token_mem p hp),
        h.shared.phase.mono rfl rfl le_rfl fun _ => id, h.shared.cold, h.shared.cooling⟩
    · exact ⟨fun hmem => (Finset.mem_insert.mp hmem).resolve_left hj, Finset.mem_insert_of_mem⟩
  | initUnlock =>
    cases hs
    exact ⟨fl, h.unlock hq rfl rfl rfl trivial⟩
  | finiLock =>
    exact ⟨fl, h.lock (p := .finiErase) hq rfl rfl hrole hs⟩
  | finiErase =>
    cases hs
    refine ⟨fl, h.register hq rfl rfl rfl rfl rfl rfl rfl ?_ ?_ ?_ fun j hj hm =>
      rely_contexts hm rfl rfl rfl ?_⟩
    · split <;> rfl
    · refine ⟨h.shared.pos, h.shared.floor_le, fun p hp => ?_,
        h.shared.phase.mono rfl rfl le_rfl fun _ => id, h.shared.cold, h.shared.cooling⟩
      exact Finset.mem_erase.mpr
        ⟨fun heq => h.token_ne hq rfl (heq ▸ hp), h.shared.token_mem p hp⟩
    · -- the last context goes on to end the epoch
      by_cases hempty : s.contexts.erase i = ∅
      · rw [if_pos hempty]
        exact hempty
      · rw [if_neg hempty]
        exact fun n hn => absurd hn List.not_mem_nil
    · exact ⟨Finset.mem_of_mem_erase, fun hmem => Finset.mem_erase.mpr ⟨hj, hmem⟩⟩
  | finiRead =>
    cases hs
    exact ⟨fl, h.goto hq rfl rfl ⟨hrole, rfl⟩⟩
  | finiEnd n =>
    cases hs
    have hm := h.mutex_of hq rfl
    refine ⟨fl, h.move hq (State.goto_pc _ i _) ?_ (.inl rfl) ⟨fun _ => rfl, fun _ => hm⟩ rfl rfl
      (.inr rfl) id hrole⟩
    refine Local.goto ?_ _
    exact ⟨Frame.of_eq rfl rfl rfl, rfl, rfl, rfl, rfl, rfl, fun _ _ => rfl⟩
  | finiBegin n =>
    cases hs
    -- nobody is registered, so the floor goes up with the epoch
    obtain ⟨hempty, rfl⟩ : s.contexts = ∅ ∧ n = s.beginEpoch := hrole
    refine ⟨s.beginEpoch + 1, h.register hq rfl rfl rfl rfl rfl rfl rfl rfl ?_
      ⟨hempty, rfl, fun n hn => ?_⟩ fun j _ hm => rely_alone h.shared hempty hm rfl rfl rfl⟩
    · exact ⟨Nat.succ_pos _, le_rfl, h.shared.token_mem,
        h.shared.phase.mono rfl rfl (Nat.le_succ _) fun _ => id,
        fun n hn => (h.shared.cold n hn).trans (Nat.le_succ _),
        fun n hn => (h.shared.cooling n hn).trans (Nat.le_succ _)⟩
    · rw [List.mem_singleton.mp hn]
      exact Nat.lt_succ_self _
  | finiCookie n =>
    cases hs
    obtain ⟨hempty, hfl, hdue⟩ :
      s.contexts = ∅ ∧ fl = s.beginEpoch ∧ ∀ m ∈ [n], m < fl := hrole
    refine ⟨fl, h.goto hq rfl rfl ⟨hempty, hfl, fun m hm => ?_⟩⟩
    cases cookie with
    | true => exact hdue m hm
    | false => exact absurd hm List.not_mem_nil
  | finiSwap active =>
    cases hs
    obtain ⟨hempty, hfl, hdue⟩ :
      s.contexts = ∅ ∧ fl = s.beginEpoch ∧ ∀ m ∈ active.toList, m < fl := hrole
    refine ⟨fl, h.goto hq rfl rfl ⟨hempty, hfl, fun m hm => ?_⟩⟩
    rcases List.mem_append.mp hm with hm | hm
    · have := h.shared.cooling m (Option.mem_toList.mp hm)
      omega
    · exact hdue m hm
  | finiStore active cooling =>
    cases hs
    refine ⟨fl, h.register hq rfl rfl rfl rfl rfl rfl rfl rfl ?_ hrole.2.2
      fun _ _ _ => Rely.of_eq rfl rfl rfl rfl⟩
    exact ⟨h.shared.pos, h.shared.floor_le, h.shared.token_mem,
      h.shared.phase.mono rfl rfl le_rfl nofun, h.shared.cold, nofun⟩
  | finiUnlock cookies =>
    cases hs
    exact ⟨fl, h.unlock hq rfl rfl rfl hrole⟩
  | finiReclaim cookies =>
    cases cookies with
    | nil =>
      cases hs
      exact ⟨fl, h.goto hq rfl rfl trivial⟩
    | cons n cookies =>
      cases hs
      have hmutex : s.mutex = some i ↔ false = true := by
        rw [ht.mutex, hq]
        rfl
      refine ⟨fl, h.move hq (State.goto_pc _ i _) ?_ (.inl rfl) hmutex rfl rfl (.inr rfl) id hrole⟩
      refine Local.goto ?_ _
      exact ⟨Frame.of_eq rfl rfl rfl, rfl, rfl, rfl, rfl, rfl, fun _ _ => rfl⟩
  | finiCall n cookies =>
    cases hs
    exact ⟨fl, h.goto hq rfl rfl fun m hm => hrole m (List.mem_cons_of_mem _ hm)⟩
  | _ =>
    cases hs

end Registry

/-- A thread that has not got the token meets a calm manager if it is ready. -/
theorem Inv.calm_of_ready (h : Inv s ph fl) {q : Pc ι} (hq : s.pc i = q)
    (hcrit : q.critical = true) (htok : q.role.token = false) (hready : s.ready = true) :
    ph = .calm := by
  have hm := h.mutex_of hq hcrit
  have hphase := h.shared.phase
  cases ph with
  | calm => rfl
  | opening p todo found reading =>
    -- the opener has the mutex, so it is this thread
    have hp := (h.thread p).opener rfl
    have hmp := (h.thread p).mutex.mpr (Pc.critical_of_held _ (Role.held_of_opens hp))
    rw [hm, Option.some_inj] at hmp
    exact absurd (hmp ▸ rfl) (h.token_ne hq htok)
  | counting _ _ | closing _ => cases hready.symm.trans hphase.2
  | draining owing todo => cases hready.symm.trans hphase.2.1

/-- What the others see when an epoch is opened. -/
theorem rely_open {j : ι} (hm : s.mutex ≠ some j) (hj : j ≠ i)
    (hb : s'.beginEpoch = s.beginEpoch + 1) (hc : s'.contexts = s.contexts)
    (hctx : s'.ctx j = s.ctx j) :
    Rely j s .calm fl s' (.opening i s.contexts ∅ none) fl := by
  refine ⟨by rw [hctx], by rw [hctx], by rw [hc], hb ▸ Nat.le_succ _, le_rfl, fun _ => rfl,
    fun h => absurd h hm, fun h => absurd (Option.some_inj.mp h).symm hj, nofun,
    fun ho => absurd ho (Finset.notMem_empty j), fun hf hf' => ?_,
    fun t hi => ⟨?_, fun _ => .inl hi.mem⟩⟩
  · rw [hctx, hf] at hf'
    cases hf'
  · have hlag := hi.lag
    have hne : s.beginEpoch ≠ t + 2 := fun heq => hi.covered heq
    omega

section New

variable [DecidableEq ι]

theorem Inv.newBegin (h : Inv s ph fl) {n : ℕ} (hq : s.pc i = .newBegin n) :
    ∃ ph', Inv ({ s with beginEpoch := n + 1 }.goto i (.newUnready n)) ph' fl := by
  have ht := h.thread i
  have hrole := ht.role
  rw [hq] at hrole
  obtain ⟨hmem, rfl, rfl⟩ : i ∈ s.contexts ∧ ph = .calm ∧ n = s.beginEpoch := hrole
  have hm := h.mutex_of hq rfl
  refine ⟨.opening i s.contexts ∅ none, h.of_rely (i := i) ?_ ?_ ?_ fun j hj => ?_⟩
  · refine Frame.goto ?_ _
    exact Frame.of_eq rfl rfl rfl
  · refine ⟨Nat.succ_pos _, h.shared.floor_le.trans (Nat.le_succ _), fun p hp => ?_,
      ⟨h.shared.phase.2, fun n hn => Nat.succ_le_succ (h.shared.cooling n hn)⟩,
      fun n hn => (h.shared.cold n hn).trans (Nat.le_succ _),
      fun n hn => (h.shared.cooling n hn).trans (Nat.le_succ _)⟩
    cases hp
    exact hmem
  · refine ⟨⟨fun _ => by rw [State.goto_pc]; rfl, fun _ => hm⟩, fun ho => ?_, fun t hr => ?_,
      fun hs => absurd (ht.flagged hs).1 (Finset.notMem_empty i), fun _ => ?_, fun _ => ?_, ?_⟩
    · rw [State.goto_pc] at ho
      cases ho
    · have hi := ht.region t hr
      have hlag := hi.lag
      have hne : s.beginEpoch ≠ t + 2 := fun heq => hi.covered heq
      refine ⟨hi.mem, ⟨hi.aim.pos, hi.aim.floor, hi.aim.le.trans (Nat.le_succ _)⟩, hi.begin_eq,
        hi.end_eq, ?_, fun _ => .inl hi.mem⟩
      change s.beginEpoch + 1 ≤ t + 2
      omega
    · rw [State.goto_pc]
      rfl
    · rw [State.goto_pc]
      rfl
    · rw [State.goto_pc]
      exact ⟨hmem, rfl, rfl⟩
  · exact rely_open (fun hmj => hj (Option.some_inj.mp (hmj.symm.trans hm))) hj rfl rfl rfl

/-- A straggler is flagged. -/
theorem Inv.newFlag (h : Inv s ph fl) {n : ℕ} {todo : Finset ι} {pick : ι}
    (hq : s.pc i = .newFlag n todo) (hpick : pick ∈ todo) :
    ∃ ph', Inv ((s.setStraggler pick true).goto i (.newFlag n (todo.erase pick))) ph' fl := by
  have ht := h.thread i
  have hrole := ht.role
  rw [hq] at hrole
  obtain ⟨hmem, htodo⟩ : i ∈ s.contexts ∧ (todo = ∅ ∨ ∃ owing, ph = .draining owing todo) := hrole
  obtain ⟨owing, rfl⟩ := htodo.resolve_left (Finset.ne_empty_of_mem hpick)
  have hm := h.mutex_of hq rfl
  obtain ⟨hcount, hready, hne, hsub⟩ := h.shared.phase
  -- while stragglers drain, no thread has the token
  have hnone : ∀ {p : ι} {P : Prop}, (none : Option ι) = some p → P :=
    fun hp => absurd hp.symm (Option.some_ne_none _)
  have hbegin : ∀ j, ((s.setStraggler pick true).ctx j).beginEpoch = (s.ctx j).beginEpoch ∧
      ((s.setStraggler pick true).ctx j).endEpoch = (s.ctx j).endEpoch := by
    intro j
    rw [State.setStraggler]
    by_cases hj : j = pick
    · rw [hj, s.setCtx_ctx]
      exact ⟨rfl, rfl⟩
    · exact ⟨by rw [State.setCtx]; exact congrArg _ (update_of_ne hj _ _),
        by rw [State.setCtx]; exact congrArg _ (update_of_ne hj _ _)⟩
  have hother : ∀ {j}, j ≠ pick → (s.setStraggler pick true).ctx j = s.ctx j :=
    fun hj => update_of_ne hj _ _
  have hflag : ∀ j, ((s.setStraggler pick true).ctx j).straggler = true →
      j ∈ owing ∧ j ∉ todo.erase pick := by
    intro j hs
    by_cases hj : j = pick
    · subst hj
      exact ⟨hsub hpick, Finset.notMem_erase j todo⟩
    · rw [hother hj] at hs
      obtain ⟨ho, hu⟩ := (h.thread j).flagged hs
      exact ⟨ho, fun hin => hu (Finset.mem_of_mem_erase hin)⟩
  have hinside : ∀ j t, Inside s (.draining owing todo) fl j t →
      Inside ((s.setStraggler pick true).goto i (.newFlag n (todo.erase pick)))
        (.draining owing (todo.erase pick)) fl j t := fun j t hi =>
    ⟨hi.mem, ⟨hi.aim.pos, hi.aim.floor, hi.aim.le⟩, (hbegin j).1.trans hi.begin_eq,
      (hbegin j).2.trans hi.end_eq, hi.lag, hi.covered⟩
  refine ⟨.draining owing (todo.erase pick), h.of_rely (i := i) ?_ ?_ ?_ fun j hj => ?_⟩
  · refine Frame.goto ?_ _
    exact Frame.of_eq rfl rfl rfl
  · exact ⟨h.shared.pos, h.shared.floor_le, fun _ hp => hnone hp,
      ⟨hcount, hready, hne, (Finset.erase_subset _ _).trans hsub⟩, h.shared.cold, h.shared.cooling⟩
  · refine ⟨⟨fun _ => by rw [State.goto_pc]; rfl, fun _ => hm⟩, fun ho => ?_,
      fun t hr => hinside i t (ht.region t hr), hflag i, hnone, hnone, ?_⟩
    · rw [State.goto_pc] at ho
      cases ho
    · rw [State.goto_pc]
      exact ⟨hmem, .inr ⟨owing, rfl⟩⟩
  · refine ⟨(hbegin j).1, (hbegin j).2, .rfl, le_rfl, le_rfl, fun _ => rfl, fun hmj => ?_, hnone,
      hnone, fun ho hu => ⟨ho, fun hin => hu (Finset.mem_of_mem_erase hin), ?_, fun _ => rfl⟩,
      fun _ hs => hflag j hs, fun t hi => ⟨hi.lag, hi.covered⟩⟩
    · exact absurd (Option.some_inj.mp (hmj.symm.trans hm)) hj
    · have hne : j ≠ pick := fun heq => hu (heq ▸ hpick)
      exact congrArg _ (hother hne)

theorem Inv.newScan (h : Inv s ph fl) {n : ℕ} {c : Option ℕ} {todo found : Finset ι} {pick : ι}
    {cookie : Bool} (hq : s.pc i = .newScan n c todo found) :
    ∃ ph', Inv (s.goto i (.newScanEnd n (cookieOf n cookie) (todo.erase pick) found pick
      (s.ctx pick).beginEpoch)) ph' fl := by
  have ht := h.thread i
  have hrole := ht.role
  rw [hq] at hrole
  obtain ⟨hmem, hn, rfl, hready, -, -⟩ := hrole
  have hm := h.mutex_of hq rfl
  refine ⟨.opening i (todo.erase pick) found (some (pick, (s.ctx pick).beginEpoch)),
    h.shift rfl (.inl rfl) ((Local.refl i s).goto _).toFrame rfl rfl rfl rfl (s.goto_pc i _)
      ⟨fun _ => rfl, fun _ => hm⟩ rfl (fun _ => rfl) (fun _ => rfl) (fun j t hi heq => ?_)
      ⟨h.shared.pos, h.shared.floor_le, h.shared.token_mem, h.shared.phase, h.shared.cold,
        h.shared.cooling⟩
      ⟨hmem, hn, rfl, hready, fun m hm => ?_, nofun⟩⟩
  · rcases hi.covered heq with hj | hj | hj
    · by_cases hp : j = pick
      · -- its `begin` has just been read
        refine .inr (.inr ?_)
        rw [← hp, hi.begin_eq]
      · exact .inl (Finset.mem_erase.mpr ⟨hp, hj⟩)
    · exact .inr (.inl hj)
    · cases hj
  · cases cookie with
    | true => exact (Option.some_inj.mp hm).symm
    | false => cases hm

theorem Inv.newScanEnd (h : Inv s ph fl) {n b : ℕ} {c : Option ℕ} {todo found : Finset ι} {t : ι}
    (hq : s.pc i = .newScanEnd n c todo found t b) :
    ∃ ph', Inv (s.goto i (.newScan n c todo
      (if b = n - 1 ∧ (s.ctx t).endEpoch < b then insert t found else found))) ph' fl := by
  have ht := h.thread i
  have hrole := ht.role
  rw [hq] at hrole
  obtain ⟨hmem, hn, rfl, hready, hcookie, -⟩ := hrole
  have hm := h.mutex_of hq rfl
  refine ⟨.opening i todo (if b = n - 1 ∧ (s.ctx t).endEpoch < b then insert t found else found)
      none,
    h.shift rfl (.inl rfl) ((Local.refl i s).goto _).toFrame rfl rfl rfl rfl (s.goto_pc i _)
      ⟨fun _ => rfl, fun _ => hm⟩ rfl (fun _ => rfl) (fun _ => rfl) (fun j e hi heq => ?_)
      ⟨h.shared.pos, h.shared.floor_le, h.shared.token_mem, h.shared.phase, h.shared.cold,
        h.shared.cooling⟩
      ⟨hmem, hn, rfl, hready, hcookie, nofun⟩⟩
  rcases hi.covered heq with hj | hj | hj
  · exact .inl hj
  · refine .inr (.inl ?_)
    split
    · exact Finset.mem_insert_of_mem hj
    · exact hj
  · -- a context in a region of epoch `n - 1` is found
    cases hj
    have hend := hi.end_eq
    have hpos := hi.aim.pos
    refine .inr (.inl ?_)
    rw [if_pos ⟨by omega, by omega⟩]
    exact Finset.mem_insert_self _ _

/-- The stragglers are counted. -/
theorem Inv.newCount (h : Inv s ph fl) {n : ℕ} {found : Finset ι} {pick : ι} {cookie : Bool}
    (hq : s.pc i = .newCount n found) (hs : s.stepNew i pick cookie (.newCount n found) = some s') :
    ∃ ph', Inv s' ph' fl := by
  have ht := h.thread i
  have hrole := ht.role
  rw [hq] at hrole
  obtain ⟨hmem, hn, rfl⟩ : i ∈ s.contexts ∧ n + 1 = s.beginEpoch ∧ ph = .counting i found := hrole
  have hm := h.mutex_of hq rfl
  rw [State.stepNew] at hs
  by_cases hempty : found = ∅
  · rw [if_pos hempty] at hs
    cases hs
    refine ⟨.closing i, h.shift rfl (.inl rfl) ((Local.refl i s).goto _).toFrame rfl rfl rfl rfl
      (s.goto_pc i _) ⟨fun _ => rfl, fun _ => hm⟩ rfl nofun (fun _ => rfl) (fun j t hi heq => ?_)
      ⟨h.shared.pos, h.shared.floor_le, h.shared.token_mem, h.shared.phase, h.shared.cold,
        h.shared.cooling⟩ ⟨hmem, rfl, nofun, nofun⟩⟩
    have hj : j ∈ found := hi.covered heq
    rw [hempty] at hj
    exact absurd hj (Finset.notMem_empty j)
  · rw [if_neg hempty] at hs
    cases hs
    refine ⟨.draining found found, h.shift (i := i) rfl (.inr rfl) ?_ rfl rfl rfl rfl
      (State.goto_pc _ i _) ⟨fun _ => rfl, fun _ => hm⟩ rfl nofun nofun
      (fun j t hi heq => hi.covered heq)
      ⟨h.shared.pos, h.shared.floor_le, nofun,
        ⟨rfl, h.shared.phase.2, Finset.nonempty_iff_ne_empty.mpr hempty, subset_rfl⟩,
        h.shared.cold, h.shared.cooling⟩ ⟨hmem, .inr ⟨found, rfl⟩⟩⟩
    refine Frame.goto ?_ _
    exact Frame.of_eq rfl rfl rfl

theorem Inv.newUnlock (h : Inv s ph fl) {ok direct : Bool} (hq : s.pc i = .newUnlock ok direct) :
    Inv ({ s with opened := update s.opened i ok }.unlock i
      (if direct then .quiesceSwap .done else .idle)) ph fl := by
  have ht := h.thread i
  have hrole := ht.role
  have hm := h.mutex_of hq rfl
  have hmutex : ∀ j, j ≠ i → (none = some j ↔ s.mutex = some j) := fun j hj =>
    ⟨nofun, fun hmj => absurd (Option.some_inj.mp (hmj.symm.trans hm)) hj⟩
  rw [hq] at hrole
  cases direct with
  | true =>
    refine h.move hq (State.goto_pc _ i _) ?_ (.inl rfl) ⟨nofun, nofun⟩ rfl rfl (.inr rfl) id hrole
    refine Local.goto ?_ _
    exact ⟨⟨fun _ _ => rfl, fun _ _ => rfl, hmutex⟩, rfl, rfl, rfl, rfl, rfl, fun _ _ => rfl⟩
  | false =>
    refine h.move hq (State.goto_pc _ i _) ?_ (.inl rfl) ⟨nofun, nofun⟩ rfl rfl (.inr rfl) id
      trivial
    refine Local.goto ?_ _
    exact ⟨⟨fun _ _ => rfl, fun _ _ => rfl, hmutex⟩, rfl, rfl, rfl, rfl, rfl, fun _ _ => rfl⟩

theorem Inv.stepNew (h : Inv s ph fl) {pick : ι} {cookie : Bool}
    (hs : s.stepNew i pick cookie (s.pc i) = some s') : ∃ ph', Inv s' ph' fl := by
  have ht := h.thread i
  have hrole := ht.role
  generalize hq : s.pc i = q at hs hrole
  cases q with
  -- nothing is done unless the last change has ended
  | newLock =>
    exact ⟨ph, h.lock (p := .newReady) hq rfl rfl hrole hs⟩
  | newReady =>
    cases hs
    by_cases hready : s.ready = true
    · rw [if_pos hready]
      exact ⟨ph, h.goto hq rfl rfl ⟨hrole, h.calm_of_ready hq rfl rfl hready⟩⟩
    · rw [if_neg hready]
      exact ⟨ph, h.goto hq rfl rfl hrole⟩
  | newRead =>
    cases hs
    exact ⟨ph, h.goto hq rfl rfl ⟨hrole.1, hrole.2, rfl⟩⟩
  -- from the store of `begin` on, every registered context may be a straggler
  | newBegin n =>
    cases hs
    exact h.newBegin hq
  | newUnready n =>
    cases hs
    obtain ⟨hmem, hn, rfl⟩ :
      i ∈ s.contexts ∧ n + 1 = s.beginEpoch ∧ ph = .opening i s.contexts ∅ none := hrole
    have hm := h.mutex_of hq rfl
    refine ⟨_, h.shift (i := i) rfl (.inl rfl) ?_ rfl rfl rfl rfl (State.goto_pc _ i _)
      ⟨fun _ => rfl, fun _ => hm⟩ rfl (fun _ => rfl) (fun _ => rfl)
      (fun j t hi heq => hi.covered heq)
      ⟨h.shared.pos, h.shared.floor_le, h.shared.token_mem, h.shared.phase, h.shared.cold,
        h.shared.cooling⟩ ⟨hmem, hn, rfl, rfl⟩⟩
    refine Frame.goto ?_ _
    exact Frame.of_eq rfl rfl rfl
  | newEnded n =>
    cases hs
    obtain ⟨hmem, hn, hph, hready⟩ : i ∈ s.contexts ∧ n + 1 = s.beginEpoch ∧
      ph = .opening i s.contexts ∅ none ∧ s.ready = false := hrole
    refine ⟨ph, h.goto hq rfl rfl ⟨hmem, hn, hph, hready, fun m hm => ?_, nofun⟩⟩
    cases cookie with
    | true => exact (Option.some_inj.mp hm).symm
    | false => cases hm
  -- the scan takes contexts from those that may be stragglers to those that are
  | newScan n c todo found =>
    rw [State.stepNew] at hs
    by_cases hempty : todo = ∅
    · rw [if_pos hempty] at hs
      cases hs
      subst hempty
      exact ⟨ph, h.goto hq rfl rfl hrole⟩
    · rw [if_neg hempty] at hs
      obtain ⟨hpick, hs⟩ := Option.ite_none_right_eq_some.mp hs
      cases hs
      exact h.newScan hq
  | newScanEnd n c todo found t b =>
    cases hs
    exact h.newScanEnd hq
  -- the cookies move on: what was cooling is cold, and the epoch that ends is cooling
  | newCooling n c found =>
    cases hs
    obtain ⟨hmem, hn, rfl, hready, hcookie, -⟩ := hrole
    exact ⟨_, h.goto hq rfl rfl ⟨hmem, hn, rfl, hready, hcookie, h.shared.phase.2⟩⟩
  | newCold n c found cooling =>
    cases hs
    obtain ⟨hmem, hn, rfl, hready, hcookie, hcold⟩ := hrole
    have hm := h.mutex_of hq rfl
    refine ⟨_, h.shift (i := i) rfl (.inl rfl) ?_ rfl rfl rfl rfl (State.goto_pc _ i _)
      ⟨fun _ => rfl, fun _ => hm⟩ rfl (fun _ => rfl) (fun _ => rfl)
      (fun j t hi heq => hi.covered heq)
      ⟨h.shared.pos, h.shared.floor_le, h.shared.token_mem, h.shared.phase, hcold,
        h.shared.cooling⟩ ⟨hmem, hn, rfl, hready, hcookie, nofun⟩⟩
    refine Frame.goto ?_ _
    exact Frame.of_eq rfl rfl rfl
  | newCookie n c found =>
    cases hs
    obtain ⟨hmem, hn, rfl, hready, hcookie, -⟩ := hrole
    have hm := h.mutex_of hq rfl
    refine ⟨.counting i found, h.shift (i := i) rfl (.inl rfl) ?_ rfl rfl rfl rfl
      (State.goto_pc _ i _) ⟨fun _ => rfl, fun _ => hm⟩ rfl (fun _ => rfl) (fun _ => rfl)
      (fun j t hi heq => ?_)
      ⟨h.shared.pos, h.shared.floor_le, h.shared.token_mem, ⟨h.shared.phase.1, hready⟩,
        h.shared.cold, fun m hc => (hcookie m hc ▸ hn).le⟩ ⟨hmem, hn, rfl⟩⟩
    · refine Frame.goto ?_ _
      exact Frame.of_eq rfl rfl rfl
    · rcases hi.covered heq with hj | hj | hj
      · exact absurd hj (Finset.notMem_empty j)
      · exact hj
      · cases hj
  -- the stragglers are counted before the first of them is flagged
  | newCount n found =>
    exact h.newCount hq hs
  | newFlag n todo =>
    rw [State.stepNew] at hs
    by_cases hempty : todo = ∅
    · rw [if_pos hempty] at hs
      cases hs
      exact ⟨ph, h.goto hq rfl rfl hrole.1⟩
    · rw [if_neg hempty] at hs
      obtain ⟨hpick, hs⟩ := Option.ite_none_right_eq_some.mp hs
      cases hs
      exact h.newFlag hq hpick
  -- only now can a context see that the epoch has ended
  | newEnd n direct =>
    cases hs
    have hm := h.mutex_of hq rfl
    refine ⟨ph, h.move hq (State.goto_pc _ i _) ?_ (.inl rfl) ⟨fun _ => rfl, fun _ => hm⟩
      (by cases direct <;> rfl) rfl (.inr rfl) id ?_⟩
    · refine Local.goto ?_ _
      exact ⟨Frame.of_eq rfl rfl rfl, rfl, rfl, rfl, rfl, rfl, fun _ _ => rfl⟩
    · cases direct <;> exact hrole
  | newUnlock ok direct =>
    cases hs
    exact ⟨ph, h.newUnlock hq⟩
  | _ =>
    cases hs

end New

/-- A thread outside of regions with no part in the change enters a function. -/
theorem Inv.depart (h : Inv s ph fl) (hq : s.pc i = .idle) {p : Pc ι} (hl : Local i s s')
    (hcold : s'.cold = s.cold) (hp : s'.pc i = p) (hregion : s'.region i = none)
    (hctx : s'.ctx i = s.ctx i) (hmutex : s'.mutex = s.mutex) (hcrit : p.critical = false)
    (hrole : Promise s ph fl i p.role) : Inv s' ph fl := by
  have ht := h.thread i
  refine h.of_rely hl.toFrame (hl.shared (.inl hcold) h.shared) ?_ hl.rely
  refine thread_outside hp ⟨fun hm => ?_, fun hc => ?_⟩ hregion
    (by rw [hctx]; exact ht.flagged) (h.token_ne hq rfl) ?_
  · have hm' := ht.mutex.mp (hmutex ▸ hm)
    rw [hq] at hm'
    cases hm'
  · rw [hcrit] at hc
    cases hc
  · have hrely : Rely i s ph fl s' ph fl := Rely.of_eq hl.beginEpoch hl.contexts hl.ready hctx
    refine hrely.role ht.flagged (fun hheld => ?_) hrole
    rw [Pc.critical_of_held p hheld] at hcrit
    cases hcrit

theorem Inv.region_eq_none (h : Inv s ph fl)
    (hn : i ∉ s.contexts ∨ ¬ (s.ctx i).active) : s.region i = none := by
  cases hr : s.region i with
  | none => rfl
  | some t =>
    have hi := (h.thread i).region t hr
    have hactive : (s.ctx i).active := by
      rw [Ctx.active, hi.begin_eq, hi.end_eq]
      exact hi.aim.pos
    exact absurd hn (not_or.mpr ⟨not_not.mpr hi.mem, not_not.mpr hactive⟩)

section Step

variable [DecidableEq ι]

theorem Inv.call (h : Inv s ph fl) {f : Call} (hq : s.pc i = .idle) (hs : s.call i f = some s') :
    Inv s' ph fl := by
  -- from a place outside, and from inside a region
  have hgoto : ∀ {p : Pc ι}, i ∉ s.contexts ∨ ¬ (s.ctx i).active → p.critical = false →
      Promise s ph fl i p.role → Inv (s.goto i p) ph fl := fun {p} hn hcrit hrole =>
    h.depart hq ((Local.refl i s).goto p) rfl (s.goto_pc i p) (h.region_eq_none hn) rfl rfl hcrit
      hrole
  have hleave : ∀ {p : Pc ι}, p.critical = false → Promise s ph fl i p.role →
      Inv ((s.setRegion i none).goto i p) ph fl := fun {p} hcrit hrole =>
    h.depart hq (((Local.refl i s).setRegion none).goto p) rfl (State.goto_pc _ i p)
      (update_self _ _ _) rfl rfl hcrit hrole
  cases f with
  | enter =>
    obtain ⟨⟨hmem, hactive⟩, hs⟩ := Option.ite_none_right_eq_some.mp hs
    cases hs
    exact hgoto (.inr hactive) rfl hmem
  | exit =>
    obtain ⟨⟨hmem, -⟩, hs⟩ := Option.ite_none_right_eq_some.mp hs
    cases hs
    exact hleave rfl ⟨hmem, nofun⟩
  | quiesce =>
    obtain ⟨⟨hmem, -⟩, hs⟩ := Option.ite_none_right_eq_some.mp hs
    split at hs
    · next hflag =>
      cases hs
      exact hleave rfl ⟨hmem, hflag⟩
    · cases hs
      exact h
  | init =>
    obtain ⟨hmem, hs⟩ := Option.ite_none_right_eq_some.mp hs
    cases hs
    exact hgoto (.inl hmem) rfl trivial
  | fini =>
    obtain ⟨hmem, hs⟩ := Option.ite_none_right_eq_some.mp hs
    split at hs
    · cases hs
      exact hleave rfl ⟨hmem, nofun⟩
    · next hactive =>
      cases hs
      exact hgoto (.inr hactive) rfl hmem
  | newEpoch =>
    obtain ⟨hmem, hs⟩ := Option.ite_none_right_eq_some.mp hs
    cases hs
    exact h.goto hq rfl rfl hmem

theorem Inv.step (h : Inv s ph fl) {x : Act ι} (hs : s.step x = some s') :
    ∃ ph' fl', Inv s' ph' fl' := by
  cases x with
  | call i f =>
    rw [State.step] at hs
    split at hs
    · next hq => exact ⟨ph, fl, h.call hq hs⟩
    · cases hs
  | step i pick cookie =>
    rcases Option.or_eq_some_iff.mp hs with hs | ⟨-, hs⟩
    · obtain ⟨ph', h'⟩ := h.stepContext hs
      exact ⟨ph', fl, h'⟩
    rcases Option.or_eq_some_iff.mp hs with hs | ⟨-, hs⟩
    · obtain ⟨fl', h'⟩ := h.stepRegistry hs
      exact ⟨ph, fl', h'⟩
    · obtain ⟨ph', h'⟩ := h.stepNew hs
      exact ⟨ph', fl, h'⟩

theorem run_inv {as : List (Act ι)} (hr : StepRun.run State.step State.init as = some s) :
    ∃ ph fl, Inv s ph fl := by
  refine StepRun.run_invariant (I := fun s => ∃ ph fl, Inv s ph fl) ?_ hr ⟨.calm, 0, inv_init⟩
  rintro s x s' hs ⟨ph, fl, hi⟩
  exact hi.step hs

end Step

/-- A critical region is at most two epochs behind. -/
theorem Inv.lag (h : Inv s ph fl) {t : ℕ} (hr : s.region i = some t) :
    t ≤ s.beginEpoch ∧ s.beginEpoch ≤ t + 2 :=
  ⟨((h.thread i).region t hr).aim.le, ((h.thread i).region t hr).lag⟩

/-- `epoch_reclaimed` runs for the cookie of epoch `n`. -/
def Reclaims (s : State ι) (i : ι) (n : ℕ) : Prop :=
  (∃ k, s.pc i = .reclaimed n k) ∨ ∃ cookies, s.pc i = .finiCall n cookies

/-- No context is in a region of an epoch that is being reclaimed. -/
theorem Inv.reclaims (h : Inv s ph fl) {n t : ℕ} {j : ι} (hi : Reclaims s i n)
    (hj : s.region j = some t) : n < t := by
  have hrole := (h.thread i).role
  have hinside := (h.thread j).region t hj
  rcases hi with ⟨k, hq⟩ | ⟨cookies, hq⟩ <;> rw [hq] at hrole
  · obtain ⟨-, rfl, -, hn⟩ := hrole
    have hlag := hinside.lag
    have hne : s.beginEpoch ≠ t + 2 := fun heq => hinside.covered heq
    have := hn n rfl
    omega
  · exact (hrole n List.mem_cons_self).trans_le hinside.aim.floor

end Epoch

end PreemptDB
