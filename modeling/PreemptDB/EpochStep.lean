/-
The steps of the epoch manager keep its invariant.

Most steps change nothing but what belongs to the thread itself (`Local`).  The
others change the phase, the epoch or the set of contexts; for each of them there
is a lemma that says what the other threads see of it.

* `Local` — a step of thread `i` that others do not see;
* `Inv.move`, `Inv.goto` — such steps keep the invariant;
* `Inv.shift` — steps to another phase;
* `thread_resume` — the returns from helper functions;
* `Inv.stepContext` — `context_enter`, `context_exit`, `context_quiesce`.
-/
import PreemptDB.EpochSafety

namespace PreemptDB

open Function

namespace Epoch

variable {ι : Type*} {i : ι} {s s' : State ι} {ph ph' : Phase ι} {fl fl' : ℕ}

/-- The other threads are where they were. -/
structure Frame (i : ι) (s s' : State ι) : Prop where
  pc : ∀ j, j ≠ i → s'.pc j = s.pc j
  region : ∀ j, j ≠ i → s'.region j = s.region j
  mutex : ∀ j, j ≠ i → (s'.mutex = some j ↔ s.mutex = some j)

/-- Thread `i` changes nothing that another thread relies on. -/
structure Local (i : ι) (s s' : State ι) : Prop extends Frame i s s' where
  beginEpoch : s'.beginEpoch = s.beginEpoch
  contexts : s'.contexts = s.contexts
  ready : s'.ready = s.ready
  nstragglers : s'.nstragglers = s.nstragglers
  cooling : s'.cooling = s.cooling
  ctx : ∀ j, j ≠ i → s'.ctx j = s.ctx j

theorem Frame.of_eq (hpc : s'.pc = s.pc) (hregion : s'.region = s.region)
    (hmutex : s'.mutex = s.mutex) : Frame i s s' :=
  ⟨fun _ _ => by rw [hpc], fun _ _ => by rw [hregion], fun _ _ => by rw [hmutex]⟩

theorem Local.refl (i : ι) (s : State ι) : Local i s s :=
  ⟨Frame.of_eq rfl rfl rfl, rfl, rfl, rfl, rfl, rfl, fun _ _ => rfl⟩

/-- The mutex goes to the thread or comes from it. -/
theorem Local.setMutex (h : Local i s s') {m : Option ι}
    (hm : ∀ j, j ≠ i → (m = some j ↔ s.mutex = some j)) :
    Local i s { s' with mutex := m } :=
  ⟨⟨h.pc, h.region, hm⟩, h.beginEpoch, h.contexts, h.ready, h.nstragglers, h.cooling, h.ctx⟩

section Build

variable [DecidableEq ι]

theorem Frame.goto (h : Frame i s s') (p : Pc ι) : Frame i s (s'.goto i p) :=
  ⟨fun j hj => (update_of_ne hj _ _).trans (h.pc j hj), h.region, h.mutex⟩

theorem Frame.setRegion (h : Frame i s s') (r : Option ℕ) : Frame i s (s'.setRegion i r) :=
  ⟨h.pc, fun j hj => (update_of_ne hj _ _).trans (h.region j hj), h.mutex⟩

theorem Frame.resume (h : Frame i s s') (k : Cont) : Frame i s (s'.resume i k) := by
  cases k with
  | retry => exact h.goto _
  | done => exact h.goto _
  | moved => exact (h.setRegion _).goto _
  | fini => exact h.goto _

theorem Local.goto (h : Local i s s') (p : Pc ι) : Local i s (s'.goto i p) :=
  ⟨h.toFrame.goto p, h.beginEpoch, h.contexts, h.ready, h.nstragglers, h.cooling, h.ctx⟩

theorem Local.setRegion (h : Local i s s') (r : Option ℕ) : Local i s (s'.setRegion i r) :=
  ⟨h.toFrame.setRegion r, h.beginEpoch, h.contexts, h.ready, h.nstragglers, h.cooling, h.ctx⟩

theorem Local.setCtx (h : Local i s s') (c : Ctx) : Local i s (s'.setCtx i c) :=
  ⟨⟨h.pc, h.region, h.mutex⟩, h.beginEpoch, h.contexts, h.ready, h.nstragglers, h.cooling,
    fun j hj => (update_of_ne hj _ _).trans (h.ctx j hj)⟩

/-- The fields that a return does not change. -/
theorem State.resume_fields (s : State ι) (i : ι) (k : Cont) :
    (s.resume i k).beginEpoch = s.beginEpoch ∧ (s.resume i k).contexts = s.contexts ∧
      (s.resume i k).ready = s.ready ∧ (s.resume i k).nstragglers = s.nstragglers ∧
      (s.resume i k).cooling = s.cooling ∧ (s.resume i k).cold = s.cold ∧
      (s.resume i k).ctx = s.ctx := by
  cases k <;> exact ⟨rfl, rfl, rfl, rfl, rfl, rfl, rfl⟩

theorem Local.resume (h : Local i s s') (k : Cont) : Local i s (s'.resume i k) := by
  obtain ⟨hb, hc, hr, hn, hcool, -, hctx⟩ := s'.resume_fields i k
  exact ⟨h.toFrame.resume k, hb.trans h.beginEpoch, hc.trans h.contexts, hr.trans h.ready,
    hn.trans h.nstragglers, hcool.trans h.cooling, fun j hj => by rw [hctx]; exact h.ctx j hj⟩

end Build

/-- A thread that is left alone. -/
theorem Rely.of_eq (hb : s'.beginEpoch = s.beginEpoch) (hc : s'.contexts = s.contexts)
    (hr : s'.ready = s.ready) (hctx : s'.ctx i = s.ctx i) : Rely i s ph fl s' ph fl where
  begin_eq := by rw [hctx]
  end_eq := by rw [hctx]
  mem := by rw [hc]
  le := hb.ge
  floor_le := le_rfl
  floor _ := rfl
  held _ := ⟨hb, hc, rfl, id, fun owing _ h _ => ⟨owing, h⟩⟩
  token := id
  keeps _ := ⟨rfl, hb, fun h => hr.trans h⟩
  owes ho hu := ⟨ho, hu, by rw [hctx], fun _ => hb⟩
  flagged h h' := by rw [hctx, h] at h'; cases h'
  covered t hi := ⟨hb ▸ hi.lag, fun h => hi.covered (hb ▸ h)⟩

theorem Local.rely (h : Local i s s') (j : ι) (hj : j ≠ i) : Rely j s ph fl s' ph fl :=
  Rely.of_eq h.beginEpoch h.contexts h.ready (h.ctx j hj)

theorem PhaseOk.mono (h : PhaseOk s ph) (hn : s'.nstragglers = s.nstragglers)
    (hr : s'.ready = s.ready) (hb : s.beginEpoch ≤ s'.beginEpoch)
    (hc : ∀ n, s'.cooling = some n → s.cooling = some n) : PhaseOk s' ph := by
  cases ph with
  | calm => exact ⟨hr.trans h.1, hn.trans h.2⟩
  | opening p todo found reading =>
    exact ⟨hn.trans h.1, fun n hs => (h.2 n (hc n hs)).trans hb⟩
  | counting _ _ | closing _ => exact ⟨hn.trans h.1, hr.trans h.2⟩
  | draining owing todo => exact ⟨hn.trans h.1, hr.trans h.2.1, h.2.2⟩

theorem Local.shared (h : Local i s s') (hcold : s'.cold = s.cold ∨ s'.cold = none)
    (hs : Shared s ph fl) : Shared s' ph fl := by
  obtain ⟨hpos, hfloor, htoken, hphase, hold, hcool⟩ := hs
  have hb := h.beginEpoch
  refine ⟨hb ▸ hpos, hb ▸ hfloor, h.contexts ▸ htoken,
    hphase.mono h.nstragglers h.ready hb.ge fun n hn => h.cooling ▸ hn, fun n hn => ?_, ?_⟩
  · rw [hb]
    rcases hcold with hc | hc <;> rw [hc] at hn
    · exact hold n hn
    · cases hn
  · rw [h.cooling, hb]
    exact hcool

/-- A step of thread `i` that the others see as `Rely` says. -/
theorem Inv.of_rely (h : Inv s ph fl) (hf : Frame i s s') (hs : Shared s' ph' fl')
    (hi : Thread s' ph' fl' i) (hrely : ∀ j, j ≠ i → Rely j s ph fl s' ph' fl') :
    Inv s' ph' fl' := by
  refine ⟨hs, fun j => ?_⟩
  by_cases hj : j = i
  · exact hj ▸ hi
  · exact (hrely j hj).thread (hf.pc j hj) (hf.region j hj) (hf.mutex j hj) (h.thread j)

/-- A pc may follow another without a change of phase. -/
def Pc.follows (q p : Pc ι) : Bool :=
  (!p.outside || q.outside) && (!q.role.opens || p.role.opens) && (!q.role.token || p.role.token)

theorem Pc.follows_spec {q p : Pc ι} (h : q.follows p = true) :
    (p.outside = true → q.outside = true) ∧ (q.role.opens = true → p.role.opens = true) ∧
      (q.role.token = true → p.role.token = true) := by
  simp only [follows, Bool.and_eq_true, Bool.or_eq_true, Bool.not_eq_true'] at h
  refine ⟨fun ho => ?_, fun ho => ?_, fun ho => ?_⟩
  · exact h.1.1.resolve_left (by rw [ho]; nofun)
  · exact h.1.2.resolve_left (by rw [ho]; nofun)
  · exact h.2.resolve_left (by rw [ho]; nofun)

/-- A step that others do not see, and that keeps the phase. -/
theorem Inv.move (h : Inv s ph fl) {q p : Pc ι} (hq : s.pc i = q) (hp : s'.pc i = p)
    (hl : Local i s s') (hcold : s'.cold = s.cold ∨ s'.cold = none)
    (hmutex : s'.mutex = some i ↔ p.critical = true) (hfollows : q.follows p = true)
    (hregion : s'.region i = s.region i) (hctx : q.outside = true ∨ s'.ctx i = s.ctx i)
    (hflag : (s'.ctx i).straggler = true → (s.ctx i).straggler = true)
    (hrole : Promise s' ph fl i p.role) : Inv s' ph fl := by
  obtain ⟨hout, hopens, htoken⟩ := Pc.follows_spec hfollows
  have ht := h.thread i
  refine h.of_rely hl.toFrame (hl.shared hcold h.shared) ?_ hl.rely
  refine ⟨hp ▸ hmutex, fun ho => ?_, fun t hreg => ?_, fun hs => ht.flagged (hflag hs),
    fun ho => ?_, fun hk => ?_, hp ▸ hrole⟩
  · rw [hregion]
    exact ht.outside (hq ▸ hout (hp ▸ ho))
  · rw [hregion] at hreg
    rcases hctx with ho | hctx
    · rw [ht.outside (hq ▸ ho)] at hreg
      cases hreg
    · exact (Rely.of_eq hl.beginEpoch hl.contexts hl.ready hctx).inside (ht.region t hreg)
  · rw [hp]
    exact hopens (hq ▸ ht.opener ho)
  · rw [hp]
    exact htoken (hq ▸ ht.token hk)

section Goto

variable [DecidableEq ι]

theorem State.goto_pc (s : State ι) (i : ι) (p : Pc ι) : (s.goto i p).pc i = p :=
  update_self _ _ _

theorem State.setCtx_ctx (s : State ι) (i : ι) (c : Ctx) : (s.setCtx i c).ctx i = c :=
  update_self _ _ _

/-- Promises are not about the pc. -/
theorem Promise.goto {j : ι} {p : Pc ι} {r : Role ι} (hr : Promise s ph fl i r)
    (hf : (s.ctx i).straggler = true → i ∈ ph.owing ∧ i ∉ ph.unflagged)
    (hm : r.held = true → s.mutex = some i) : Promise (s.goto j p) ph fl i r :=
  have hrely : Rely i s ph fl (s.goto j p) ph fl := Rely.of_eq rfl rfl rfl rfl
  hrely.role hf hm hr

/-- A step that only reads. -/
theorem Inv.goto (h : Inv s ph fl) {q p : Pc ι} (hq : s.pc i = q) (hcrit : p.critical = q.critical)
    (hfollows : q.follows p = true) (hrole : Promise s ph fl i p.role) :
    Inv (s.goto i p) ph fl := by
  have hmutex : s.mutex = some i ↔ p.critical = true := by
    rw [hcrit, ← hq]
    exact (h.thread i).mutex
  exact h.move hq (s.goto_pc i p) ((Local.refl i s).goto p) (.inl rfl) hmutex hfollows rfl
    (.inr rfl) id (hrole.goto (h.thread i).flagged
      fun hheld => hmutex.mpr (Pc.critical_of_held p hheld))

/-- A step that writes to the thread's own context, outside of a region. -/
theorem Inv.write (h : Inv s ph fl) {q p : Pc ι} {c : Ctx} (hq : s.pc i = q)
    (hcrit : p.critical = q.critical) (hfollows : q.follows p = true) (hout : q.outside = true)
    (hflag : c.straggler = true → (s.ctx i).straggler = true)
    (hrole : Promise ((s.setCtx i c).goto i p) ph fl i p.role) :
    Inv ((s.setCtx i c).goto i p) ph fl := by
  have hmutex : s.mutex = some i ↔ p.critical = true := by
    rw [hcrit, ← hq]
    exact (h.thread i).mutex
  refine h.move hq ((s.setCtx i c).goto_pc i p) (((Local.refl i s).setCtx c).goto p) (.inl rfl)
    hmutex hfollows rfl (.inl hout) (fun hs => hflag ?_) hrole
  change ((s.setCtx i c).ctx i).straggler = true at hs
  rwa [s.setCtx_ctx] at hs

theorem Inv.lock (h : Inv s ph fl) {q p : Pc ι} (hq : s.pc i = q)
    (hcrit : p.critical = true) (hfollows : q.follows p = true)
    (hrole : Promise { s with mutex := some i } ph fl i p.role) (hs : s.lock i p = some s') :
    Inv s' ph fl := by
  obtain ⟨hfree, hs⟩ := Option.ite_none_right_eq_some.mp hs
  cases hs
  refine h.move hq (State.goto_pc _ i p) (((Local.refl i s).setMutex fun j hj => ?_).goto p)
    (.inl rfl) ⟨fun _ => hcrit, fun _ => rfl⟩ hfollows rfl (.inr rfl) id
    (hrole.goto (h.thread i).flagged fun _ => rfl)
  rw [hfree, Option.some_inj]
  exact ⟨fun heq => absurd heq.symm hj, nofun⟩

theorem Inv.unlock (h : Inv s ph fl) {q p : Pc ι} (hq : s.pc i = q) (hqc : q.critical = true)
    (hcrit : p.critical = false) (hfollows : q.follows p = true)
    (hrole : Promise { s with mutex := none } ph fl i p.role) : Inv (s.unlock i p) ph fl := by
  have hheld := h.mutex_of hq hqc
  refine h.move hq (State.goto_pc _ i p) (((Local.refl i s).setMutex fun j hj => ?_).goto p)
    (.inl rfl) ⟨nofun, fun hc => ?_⟩ hfollows rfl (.inr rfl) id
    (hrole.goto (h.thread i).flagged fun hr => ?_)
  · rw [hheld, Option.some_inj]
    exact ⟨nofun, fun heq => absurd heq.symm hj⟩
  · rw [hcrit] at hc
    cases hc
  · rw [Pc.critical_of_held p hr] at hcrit
    cases hcrit

/-- A helper function returns. -/
theorem thread_resume {k : Cont} (hs : Shared s ph fl) (hmem : i ∈ s.contexts)
    (hmutex : s.mutex ≠ some i) (hout : k ≠ .done → s.region i = none)
    (hregion : ∀ t, s.region i = some t → Inside s ph fl i t)
    (hflag : (s.ctx i).straggler = true → i ∈ ph.owing ∧ i ∉ ph.unflagged)
    (htoken : ph.token ≠ some i) (hk : Moved s i k) : Thread (s.resume i k) ph fl i := by
  have hgoto : ∀ {p : Pc ι}, p.critical = false → (p.outside = true → s.region i = none) →
      Promise s ph fl i p.role → Thread (s.goto i p) ph fl i := by
    intro p hcrit hreg hrole
    have hrely : Rely i s ph fl (s.goto i p) ph fl := Rely.of_eq rfl rfl rfl rfl
    refine ⟨⟨fun hm => absurd hm hmutex, fun hc => ?_⟩, fun ho => hreg (s.goto_pc i p ▸ ho),
      fun t ht => hrely.inside (hregion t ht), hflag,
      fun ho => absurd (Phase.token_of_opener ho) htoken, fun ht => absurd ht htoken, ?_⟩
    · rw [s.goto_pc, hcrit] at hc
      cases hc
    · rw [s.goto_pc]
      refine hrole.goto hflag fun hheld => ?_
      rw [Pc.critical_of_held p hheld] at hcrit
      cases hcrit
  cases k with
  | retry | fini => exact hgoto rfl (fun _ => hout nofun) hmem
  | done => exact hgoto rfl nofun trivial
  | moved =>
    obtain ⟨hbegin, hend⟩ := hk rfl
    refine ⟨⟨fun hm => absurd hm hmutex, fun hc => ?_⟩, fun ho => ?_, fun t ht => ?_, hflag,
      fun ho => absurd (Phase.token_of_opener ho) htoken, fun ht => absurd ht htoken, ?_⟩
    · rw [State.resume, State.goto_pc] at hc
      cases hc
    · rw [State.resume, State.goto_pc] at ho
      cases ho
    · change update s.region i (some (s.ctx i).beginEpoch) i = some t at ht
      rw [update_self, Option.some_inj] at ht
      subst ht
      refine ⟨hmem, ⟨hbegin ▸ hs.pos, hbegin ▸ hs.floor_le, hbegin.le⟩, rfl, hend, ?_, fun h => ?_⟩
      · change s.beginEpoch ≤ _
        omega
      · change s.beginEpoch = _ at h
        omega
    · rw [State.resume, State.goto_pc]
      trivial

/-- A helper function returns, and others do not see it. -/
theorem Inv.resume (h : Inv s ph fl) {q : Pc ι} {k : Cont} (hq : s.pc i = q)
    (hcrit : q.critical = false) (hout : q.outside = true) (htok : q.role.token = false)
    (hmem : i ∈ s.contexts) (hk : k ≠ .moved) : Inv (s.resume i k) ph fl := by
  have ht := h.thread i
  have hl := (Local.refl i s).resume k
  have hcold : (s.resume i k).cold = s.cold := (s.resume_fields i k).2.2.2.2.2.1
  refine h.of_rely hl.toFrame (hl.shared (.inl hcold) h.shared) ?_ hl.rely
  refine thread_resume h.shared hmem (fun hm => ?_) (fun _ => ht.outside (hq ▸ hout)) ht.region
    ht.flagged (fun hp => ?_) fun heq => absurd heq hk
  · rw [ht.mutex, hq, hcrit] at hm
    cases hm
  · have htoken := ht.token hp
    rw [hq, htok] at htoken
    cases htoken

end Goto

/-- What the others see of a step of the thread that the change depends on. -/
theorem rely_token {j : ι} (hj : j ≠ i) (htok : ph.token = some i)
    (htok' : ph'.token = some i ∨ ph'.token = none) (hb : s'.beginEpoch = s.beginEpoch)
    (hc : s'.contexts = s.contexts) (hctx : s'.ctx j = s.ctx j)
    (hcov : ∀ t, Inside s ph fl j t → s.beginEpoch = t + 2 → ph'.covers j t) :
    Rely j s ph fl s' ph' fl := by
  have howing : ph.owing = ∅ := by
    cases ph <;> first | rfl | cases htok
  refine ⟨by rw [hctx], by rw [hctx], by rw [hc], hb.ge, le_rfl, fun _ => rfl,
    fun _ => ⟨hb, hc, rfl, fun heq => ?_, fun o t heq _ => ?_⟩, fun hk => ?_, fun hk => ?_,
    fun ho => ?_, fun hf hf' => ?_, fun t ht => ⟨hb ▸ ht.lag, fun heq => hcov t ht (hb ▸ heq)⟩⟩
  · rw [heq] at htok
    cases htok
  · rw [heq] at htok
    cases htok
  · rcases htok' with h' | h' <;> rw [h'] at hk
    · exact absurd (Option.some_inj.mp hk).symm hj
    · cases hk
  · rw [htok] at hk
    exact absurd (Option.some_inj.mp hk).symm hj
  · rw [howing] at ho
    exact absurd ho (Finset.notMem_empty j)
  · rw [hctx, hf] at hf'
    cases hf'

/-- A thread that is outside of regions and has no part in the change. -/
theorem thread_outside {p : Pc ι} (hp : s'.pc i = p) (hm : s'.mutex = some i ↔ p.critical = true)
    (hr : s'.region i = none)
    (hf : (s'.ctx i).straggler = true → i ∈ ph'.owing ∧ i ∉ ph'.unflagged)
    (ht : ph'.token ≠ some i) (hrole : Promise s' ph' fl' i p.role) : Thread s' ph' fl' i := by
  refine ⟨hp ▸ hm, fun _ => hr, fun t h => ?_, hf,
    fun h => absurd (Phase.token_of_opener h) ht, fun h => absurd h ht, hp ▸ hrole⟩
  rw [hr] at h
  cases h

/-- A step of the thread that the change depends on, to another phase. -/
theorem Inv.shift (h : Inv s ph fl) {p : Pc ι} (htok : ph.token = some i)
    (htok' : ph'.token = some i ∨ ph'.token = none) (hf : Frame i s s')
    (hb : s'.beginEpoch = s.beginEpoch) (hc : s'.contexts = s.contexts) (hctx : s'.ctx = s.ctx)
    (hregion : s'.region i = s.region i) (hp : s'.pc i = p)
    (hmutex : s'.mutex = some i ↔ p.critical = true) (hout : p.outside = false)
    (hopens : ph'.opener = some i → p.role.opens = true)
    (htoken : ph'.token = some i → p.role.token = true)
    (hcov : ∀ j t, Inside s ph fl j t → s.beginEpoch = t + 2 → ph'.covers j t)
    (hs : Shared s' ph' fl) (hrole : Promise s' ph' fl i p.role) : Inv s' ph' fl := by
  have ht := h.thread i
  refine h.of_rely hf hs ?_ fun j hj =>
    rely_token hj htok htok' hb hc (by rw [hctx]) (hcov j)
  refine ⟨hp ▸ hmutex, fun ho => ?_, fun t hr => ?_, fun hstr => ?_, hp ▸ hopens, hp ▸ htoken,
    hp ▸ hrole⟩
  · rw [hp, hout] at ho
    cases ho
  · have hi := ht.region t (hregion ▸ hr)
    exact ⟨hc ▸ hi.mem, ⟨hi.aim.pos, hi.aim.floor, hb ▸ hi.aim.le⟩, hctx ▸ hi.begin_eq,
      hctx ▸ hi.end_eq, hb ▸ hi.lag, fun heq => hcov i t hi (hb ▸ heq)⟩
  · have howing := (ht.flagged (hctx ▸ hstr)).1
    cases ph <;> first | exact absurd howing (Finset.notMem_empty i) | cases htok

section Context

variable [DecidableEq ι]

/-- What the others see of a straggler that leaves. -/
theorem rely_ended {owing todo : Finset ι} {j : ι} (hi : i ∉ todo) (hsub : todo ⊆ owing)
    (hj : j ≠ i) (hb : s'.beginEpoch = s.beginEpoch) (hc : s'.contexts = s.contexts)
    (hctx : s'.ctx j = s.ctx j) :
    Rely j s (.draining owing todo) fl s'
      (if owing.erase i = ∅ then .closing i else .draining (owing.erase i) todo) fl := by
  have hkeep : ∀ {x : ι}, x ≠ i → x ∈ owing → owing.erase i ≠ ∅ := fun hx hmem =>
    Finset.ne_empty_of_mem (Finset.mem_erase.mpr ⟨hx, hmem⟩)
  refine ⟨by rw [hctx], by rw [hctx], by rw [hc], hb.ge, le_rfl, fun _ => rfl,
    fun _ => ⟨hb, hc, rfl, nofun, fun o t heq hne => ?_⟩, fun htok => ?_, nofun,
    fun ho hu => ?_, fun hf hf' => ?_, fun t ht => ⟨hb ▸ ht.lag, fun heq => ?_⟩⟩
  · cases heq
    obtain ⟨x, hx⟩ := Finset.nonempty_iff_ne_empty.mpr hne
    exact ⟨_, if_neg (hkeep (fun hxi => hi (hxi ▸ hx)) (hsub hx))⟩
  · split at htok
    · cases htok
      exact absurd rfl hj
    · cases htok
  · rw [if_neg (hkeep hj ho)]
    exact ⟨Finset.mem_erase.mpr ⟨hj, ho⟩, hu, by rw [hctx], fun _ => hb⟩
  · rw [hctx, hf] at hf'
    cases hf'
  · have hmem : j ∈ owing := ht.covered (hb ▸ heq)
    rw [if_neg (hkeep hj hmem)]
    exact Finset.mem_erase.mpr ⟨hj, hmem⟩

/-- A straggler leaves. -/
theorem Inv.ended (h : Inv s ph fl) {k : Cont} (hq : s.pc i = .ended k) :
    ∃ ph', Inv (if s.nstragglers - 1 = 0 then
        { s with nstragglers := s.nstragglers - 1 }.goto i (.quiesceSwap k)
      else { s with nstragglers := s.nstragglers - 1 }.resume i k) ph' fl := by
  have ht := h.thread i
  obtain ⟨hp, hk⟩ : Pending s ph i ∧ Moved s i k := by
    have hrole := ht.role
    rwa [hq] at hrole
  obtain ⟨owing, todo, rfl⟩ : ∃ owing todo, ph = .draining owing todo := by
    have hmem := hp.owing
    cases ph <;> first | exact ⟨_, _, rfl⟩ | exact absurd hmem (Finset.notMem_empty i)
  obtain ⟨hcount, hready, hne, hsub⟩ := h.shared.phase
  have howing : i ∈ owing := hp.owing
  have htodo : i ∉ todo := hp.flagged
  have hcard := Finset.card_erase_of_mem howing
  have hregion : s.region i = none := ht.outside (hq ▸ rfl)
  have hmutex : s.mutex ≠ some i := fun hm => by
    rw [ht.mutex, hq] at hm
    cases hm
  have hnoflag : ¬ (s.ctx i).straggler = true := fun hs => by
    rw [hp.clear] at hs
    cases hs
  refine ⟨if owing.erase i = ∅ then .closing i else .draining (owing.erase i) todo, ?_⟩
  by_cases hlast : owing.erase i = ∅
  · -- the last one reclaims
    have hzero : s.nstragglers - 1 = 0 := by rw [hcount, ← hcard, hlast, Finset.card_empty]
    rw [if_pos hzero]
    refine h.of_rely (i := i) ?_ ?_ ?_ fun j hj => rely_ended htodo hsub hj rfl rfl rfl
    · refine Frame.goto ?_ _
      exact Frame.of_eq rfl rfl rfl
    · rw [if_pos hlast]
      exact ⟨h.shared.pos, h.shared.floor_le, fun p hp' => by cases hp'; exact hp.mem,
        ⟨hzero, hready⟩, h.shared.cold, h.shared.cooling⟩
    · rw [if_pos hlast]
      refine ⟨⟨fun hm => absurd hm hmutex, fun hc => ?_⟩, fun _ => hregion, fun t hr => ?_,
        fun hs => absurd hs hnoflag, nofun, fun _ => ?_, ?_⟩
      · rw [State.goto_pc] at hc
        cases hc
      · cases hregion.symm.trans hr
      · rw [State.goto_pc]
        rfl
      · rw [State.goto_pc]
        exact ⟨hp.mem, rfl, hk, nofun⟩
  · have hpos : s.nstragglers - 1 ≠ 0 := by
      rw [hcount, ← hcard]
      exact fun hz => hlast (Finset.card_eq_zero.mp hz)
    rw [if_neg hpos, if_neg hlast]
    have hshared : Shared { s with nstragglers := s.nstragglers - 1 }
        (.draining (owing.erase i) todo) fl :=
      ⟨h.shared.pos, h.shared.floor_le, nofun,
        ⟨by rw [hcard, ← hcount], hready, Finset.nonempty_iff_ne_empty.mpr hlast,
          fun x hx => Finset.mem_erase.mpr ⟨fun hxi => htodo (hxi ▸ hx), hsub hx⟩⟩,
        h.shared.cold, h.shared.cooling⟩
    have hl : Local i { s with nstragglers := s.nstragglers - 1 }
        ({ s with nstragglers := s.nstragglers - 1 }.resume i k) := (Local.refl i _).resume k
    refine h.of_rely (i := i) ?_ (hl.shared (.inl ?_) hshared) ?_ fun j hj => ?_
    · refine Frame.resume ?_ k
      exact Frame.of_eq rfl rfl rfl
    · exact (State.resume_fields _ i k).2.2.2.2.2.1
    · exact thread_resume hshared hp.mem hmutex (fun _ => hregion)
        (fun t hr => by cases hregion.symm.trans hr) (fun hs => absurd hs hnoflag) nofun hk
    · have hrely : Rely j s (.draining owing todo) fl
          ({ s with nstragglers := s.nstragglers - 1 }.resume i k) _ fl :=
        rely_ended htodo hsub hj hl.beginEpoch hl.contexts (hl.ctx j hj)
      rwa [if_neg hlast] at hrely

/-- The cold epoch is reclaimed. -/
theorem Inv.quiesceReady (h : Inv s ph fl) {k : Cont} (hq : s.pc i = .quiesceReady k) :
    Inv ({ s with ready := true }.resume i k) .calm fl := by
  have ht := h.thread i
  obtain ⟨hmem, rfl, hk, -⟩ : i ∈ s.contexts ∧ ph = .closing i ∧ Moved s i k ∧ _ := by
    have hrole := ht.role
    rwa [hq] at hrole
  have hshared : Shared { s with ready := true } (.calm : Phase ι) fl :=
    ⟨h.shared.pos, h.shared.floor_le, nofun, ⟨rfl, h.shared.phase.1⟩, h.shared.cold,
      h.shared.cooling⟩
  have hl : Local i { s with ready := true } ({ s with ready := true }.resume i k) :=
    (Local.refl i _).resume k
  refine h.of_rely (i := i) ?_ (hl.shared (.inl ?_) hshared) ?_ fun j hj => ?_
  · refine Frame.resume ?_ k
    exact Frame.of_eq rfl rfl rfl
  · exact (State.resume_fields _ i k).2.2.2.2.2.1
  · refine thread_resume hshared hmem (fun hm => ?_) (fun hne => ?_) (fun t hr => ?_)
      (fun hs => ?_) nofun hk
    · have hm' := ht.mutex.mp hm
      rw [hq] at hm'
      cases hm'
    · refine ht.outside ?_
      rw [hq]
      cases k <;> first | rfl | exact absurd rfl hne
    · have hi := ht.region t hr
      exact ⟨hi.mem, ⟨hi.aim.pos, hi.aim.floor, hi.aim.le⟩, hi.begin_eq, hi.end_eq, hi.lag,
        fun heq => (hi.covered heq).elim⟩
    · exact absurd (ht.flagged hs).1 (Finset.notMem_empty i)
  · exact rely_token hj rfl (.inr rfl) hl.beginEpoch hl.contexts (hl.ctx j hj)
      fun t hi heq => (hi.covered heq).elim

/-- `context_enter` reports its epoch. -/
theorem Inv.enters (h : Inv s ph fl) {tmp tmp2 : ℕ} (hq : s.pc i = .enterFlag tmp tmp2)
    (hi : Inside s ph fl i tmp) : Inv ((s.setRegion i (some tmp)).goto i .idle) ph fl := by
  have ht := h.thread i
  have hl : Local i s ((s.setRegion i (some tmp)).goto i .idle) :=
    ((Local.refl i s).setRegion _).goto _
  refine h.of_rely hl.toFrame (hl.shared (.inl rfl) h.shared) ?_ hl.rely
  refine ⟨⟨fun hm => ?_, fun hc => ?_⟩, fun ho => ?_, fun t hr => ?_, ht.flagged, fun ho => ?_,
    fun hk => ?_, ?_⟩
  · have hm' := ht.mutex.mp hm
    rw [hq] at hm'
    cases hm'
  · rw [State.goto_pc] at hc
    cases hc
  · rw [State.goto_pc] at ho
    cases ho
  · change update s.region i (some tmp) i = some t at hr
    rw [update_self, Option.some_inj] at hr
    subst hr
    exact ⟨hi.mem, ⟨hi.aim.pos, hi.aim.floor, hi.aim.le⟩, hi.begin_eq, hi.end_eq, hi.lag,
      hi.covered⟩
  · have ho' := ht.opener ho
    rw [hq] at ho'
    cases ho'
  · have hk' := ht.token hk
    rw [hq] at hk'
    cases hk'
  · rw [State.goto_pc]
    trivial

/-- The cold cookie is taken. -/
theorem Inv.quiesceStore (h : Inv s ph fl) {cookie : Option ℕ} {k : Cont}
    (hq : s.pc i = .quiesceStore cookie k) :
    Inv (match cookie with
      | some n => ({ s with cold := none }.reclaim n).goto i (.reclaimed n k)
      | none => { s with cold := none }.goto i (.quiesceReady k)) ph fl := by
  have ht := h.thread i
  have hrole := ht.role
  rw [hq] at hrole
  have hmutex : s.mutex = some i ↔ false = true := by
    rw [ht.mutex, hq]
    rfl
  cases cookie with
  | none =>
    refine h.move hq (State.goto_pc _ i _) ?_ (.inr rfl) hmutex (by cases k <;> rfl) rfl (.inr rfl)
      id ⟨hrole.1, hrole.2.1, hrole.2.2.1, nofun⟩
    refine Local.goto ?_ _
    exact ⟨Frame.of_eq rfl rfl rfl, rfl, rfl, rfl, rfl, rfl, fun _ _ => rfl⟩
  | some n =>
    refine h.move hq (State.goto_pc _ i _) ?_ (.inr rfl) hmutex (by cases k <;> rfl) rfl (.inr rfl)
      id ⟨hrole.1, hrole.2.1, hrole.2.2.1, hrole.2.2.2⟩
    refine Local.goto ?_ _
    exact ⟨Frame.of_eq rfl rfl rfl, rfl, rfl, rfl, rfl, rfl, fun _ _ => rfl⟩

theorem Inv.stepContext (h : Inv s ph fl) (hs : s.stepContext i (s.pc i) = some s') :
    ∃ ph', Inv s' ph' fl := by
  have ht := h.thread i
  have hrole := ht.role
  generalize hq : s.pc i = q at hs hrole
  cases q with
  -- `context_enter`: the epoch that was read may be over when `begin` is stored, so it is
  -- read once more before the context is inside
  | enterRead =>
    cases hs
    exact ⟨ph, h.goto hq rfl rfl ⟨hrole, h.shared.pos, h.shared.floor_le, le_rfl⟩⟩
  | enterEnd tmp =>
    cases hs
    obtain ⟨hmem, haim⟩ : i ∈ s.contexts ∧ Aim s fl tmp := hrole
    refine ⟨ph, h.write hq rfl rfl rfl id ⟨hmem, ⟨haim.pos, haim.floor, haim.le⟩, ?_⟩⟩
    change ((s.setEnd i 0).ctx i).endEpoch = 0
    rw [State.setEnd, s.setCtx_ctx]
  | enterBegin tmp =>
    cases hs
    obtain ⟨hmem, haim, hend⟩ : i ∈ s.contexts ∧ Aim s fl tmp ∧ (s.ctx i).endEpoch = 0 := hrole
    refine ⟨ph, h.write hq rfl rfl rfl id ⟨hmem, ⟨haim.pos, haim.floor, haim.le⟩, ?_, ?_⟩⟩
    · change ((s.setBegin i tmp).ctx i).endEpoch = 0
      rw [State.setBegin, s.setCtx_ctx]
      exact hend
    · change ((s.setBegin i tmp).ctx i).beginEpoch = tmp
      rw [State.setBegin, s.setCtx_ctx]
  | enterCheck tmp =>
    obtain ⟨hmem, haim, hend, hbegin⟩ :
      i ∈ s.contexts ∧ Aim s fl tmp ∧ (s.ctx i).endEpoch = 0 ∧ (s.ctx i).beginEpoch = tmp := hrole
    rw [State.stepContext] at hs
    split at hs
    · -- the epoch is at most one ahead
      cases hs
      exact ⟨ph, h.goto hq rfl rfl ⟨hmem, haim, hbegin, hend, by omega, fun heq => by omega⟩⟩
    · cases hs
      exact ⟨ph, h.goto hq rfl rfl hmem⟩
  | enterLate tmp2 check =>
    cases hs
    cases check with
    | true => exact ⟨ph, h.write hq rfl rfl rfl id ⟨hrole, nofun⟩⟩
    | false => exact ⟨ph, h.write hq rfl rfl rfl id hrole⟩
  | enterFlag tmp tmp2 =>
    have hinside : Inside s ph fl i tmp := hrole
    rw [State.stepContext] at hs
    split at hs
    · cases hs
      exact ⟨ph, h.goto hq rfl rfl hinside.mem⟩
    · cases hs
      exact ⟨ph, h.enters hq hinside⟩
  -- `straggler_check`: the context waits for the change that may flag it, then looks at its
  -- flag; its promise to come to `ended` begins when it clears the flag
  | checkEnd tmp k =>
    cases hs
    split <;> exact ⟨ph, h.goto hq rfl rfl hrole⟩
  | checkLock k =>
    exact ⟨ph, h.lock (p := .checkUnlock k) hq rfl rfl hrole hs⟩
  | checkUnlock k =>
    cases hs
    exact ⟨ph, h.unlock hq rfl rfl rfl hrole⟩
  | checkFlag k =>
    rw [State.stepContext] at hs
    split at hs
    · next hflag =>
      cases hs
      exact ⟨ph, h.goto hq rfl rfl ⟨hrole.1, hrole.2, hflag⟩⟩
    · cases hs
      exact ⟨ph, h.resume hq rfl rfl rfl hrole.1 hrole.2⟩
  | checkClear k =>
    cases hs
    obtain ⟨hmem, hk, hflag⟩ : i ∈ s.contexts ∧ k ≠ .moved ∧ (s.ctx i).straggler = true := hrole
    obtain ⟨howing, hun⟩ := ht.flagged hflag
    refine ⟨ph, h.write hq rfl rfl rfl nofun ⟨⟨hmem, howing, hun, ?_⟩, fun heq => absurd heq hk⟩⟩
    change ((s.setStraggler i false).ctx i).straggler = false
    rw [State.setStraggler, s.setCtx_ctx]
  -- `straggler_ended`: the last straggler takes what is cold and closes the change
  | ended k =>
    cases hs
    exact h.ended hq
  | quiesceSwap k =>
    cases hs
    exact ⟨ph, h.goto hq rfl (by cases k <;> rfl) ⟨hrole.1, hrole.2.1, hrole.2.2.1, h.shared.cold⟩⟩
  | quiesceStore cookie k =>
    cases hs
    exact ⟨ph, h.quiesceStore hq⟩
  | reclaimed n k =>
    cases hs
    exact ⟨ph, h.goto hq rfl (by cases k <;> rfl) ⟨hrole.1, hrole.2.1, hrole.2.2.1, nofun⟩⟩
  | quiesceReady k =>
    cases hs
    exact ⟨_, h.quiesceReady hq⟩
  -- `context_quiesce` of a straggler: it goes on in the new epoch before it counts as ended
  | moveClear =>
    cases hs
    obtain ⟨hmem, hflag⟩ : i ∈ s.contexts ∧ (s.ctx i).straggler = true := hrole
    obtain ⟨howing, hun⟩ := ht.flagged hflag
    refine ⟨ph, h.write hq rfl rfl rfl nofun ⟨hmem, howing, hun, ?_⟩⟩
    change ((s.setStraggler i false).ctx i).straggler = false
    rw [State.setStraggler, s.setCtx_ctx]
  | moveEnd =>
    cases hs
    have hp : Pending s ph i := hrole
    refine ⟨ph, h.write hq rfl rfl rfl id ⟨⟨hp.mem, hp.owing, hp.flagged, ?_⟩, ?_⟩⟩
    · change ((s.setEnd i 0).ctx i).straggler = false
      rw [State.setEnd, s.setCtx_ctx]
      exact hp.clear
    · change ((s.setEnd i 0).ctx i).endEpoch = 0
      rw [State.setEnd, s.setCtx_ctx]
  | moveRead =>
    cases hs
    exact ⟨ph, h.goto hq rfl rfl ⟨hrole.1, hrole.2, rfl⟩⟩
  | moveBegin tmp =>
    cases hs
    obtain ⟨hp, hend, rfl⟩ :
      Pending s ph i ∧ (s.ctx i).endEpoch = 0 ∧ tmp = s.beginEpoch := hrole
    refine ⟨ph, h.write hq rfl rfl rfl id ⟨⟨hp.mem, hp.owing, hp.flagged, ?_⟩, fun _ => ⟨?_, ?_⟩⟩⟩
    · change ((s.setBegin i s.beginEpoch).ctx i).straggler = false
      rw [State.setBegin, s.setCtx_ctx]
      exact hp.clear
    · change ((s.setBegin i s.beginEpoch).ctx i).beginEpoch = s.beginEpoch
      rw [State.setBegin, s.setCtx_ctx]
    · change ((s.setBegin i s.beginEpoch).ctx i).endEpoch = 0
      rw [State.setBegin, s.setCtx_ctx]
      exact hend
  -- `context_exit`
  | exitRead k =>
    cases hs
    exact ⟨ph, h.goto hq rfl rfl hrole⟩
  | exitEnd tmp k =>
    cases hs
    split <;> exact ⟨ph, h.write hq rfl rfl rfl id hrole⟩
  | exitCheck k =>
    cases hs
    by_cases hlt : s.endEpoch < (s.ctx i).beginEpoch + 2
    · rw [if_pos hlt]
      exact ⟨ph, h.resume hq rfl rfl rfl hrole.1 hrole.2⟩
    · rw [if_neg hlt]
      exact ⟨ph, h.goto hq rfl rfl hrole⟩
  | _ =>
    cases hs

end Context

end Epoch

end PreemptDB
