/-
Is a preemption visible to the main context?

Every state of a worker thread is in one of two modes: the main context runs
and the preemptive one is parked, or the preemptive one runs and the main one
is suspended in some state `s0`.  When the preemptive context gives the
processor back, the main one finds its registers and its stack as they were in
`s0`, except for the lowest eight bytes of the red zone.

* `Cpu.Reached.mode` — the two modes, along every run;
* `Cpu.Reached.interrupt_current` — which context an interrupt leads to;
* `Preemption s0 s` — an interrupt of the main context and the way back;
* `preemption_transparent_iff` — when the main context can not tell.
-/
import PreemptDB.SwitchBack

namespace PreemptDB

open Function WordMem X86

variable {L : Layout} {s s' s0 t : Cpu} {ν : Helper → Clobber}

/-- The main context runs, and the preemptive one is parked. -/
structure MainRuns (L : Layout) (s : Cpu) : Prop where
  cur : getCurrentContext L s.world = L.ctx .main
  fits : L.Fits .main (s.reg .rsp)
  fs : s.fs = load s.mem (Layout.fsField (L.ctx .main))
  gs : s.gs = load s.mem (Layout.gsField (L.ctx .main))
  parked : ∃ F base, Parked L s.mem F base

theorem Layout.ctx_ne (L : Layout) : L.ctx .main ≠ L.ctx .preemptive := by
  intro h
  have hspan : Span (L.ctx .main) 0x2080 (L.ctx .main) := by
    rw [Span]
    bv_omega
  exact L.ctx_apart _ hspan (h ▸ hspan)

theorem Layout.ctx_injective (L : Layout) : Function.Injective L.ctx := by
  intro c c' h
  cases c <;> cases c'
  · rfl
  · exact absurd h L.ctx_ne
  · exact absurd h.symm L.ctx_ne
  · rfl

section Setup

/-- Rounding down to a multiple of sixteen. -/
theorem and_mask (x : Word) :
    ∃ n < 16, x &&& (0xfffffffffffffff0 : Word) = x - BitVec.ofNat 64 n := by
  have hbit : ∀ i < 64, (0xfffffffffffffff0 : Word).getLsbD i = decide (4 ≤ i) := by decide
  have hshift : x &&& (0xfffffffffffffff0 : Word) = x >>> 4 <<< 4 := by
    refine BitVec.eq_of_getLsbD_eq fun i hi => ?_
    rw [BitVec.getLsbD_and, hbit i hi, BitVec.getLsbD_shiftLeft, BitVec.getLsbD_ushiftRight]
    by_cases h : 4 ≤ i
    · simp [h, hi, Nat.not_lt.mpr h]
    · simp [h, Nat.not_le.mp h]
  refine ⟨x.toNat % 16, Nat.mod_lt _ (by norm_num), ?_⟩
  rw [hshift]
  refine BitVec.eq_of_toNat_eq ?_
  simp only [BitVec.toNat_shiftLeft, BitVec.toNat_ushiftRight, Nat.shiftRight_eq_div_pow,
    Nat.shiftLeft_eq, BitVec.toNat_sub, BitVec.toNat_ofNat]
  omega

/-- The registers that `init_stack` pushes; the slot of RBP gets RDI. -/
def initRegs : List Reg :=
  [.rax, .rbx, .rcx, .rdx, .rdi, .rsi, .rdi, .r8, .r9, .r10, .r11, .r12, .r13, .r14, .r15]

/-- `init_stack` leaves a frame on the new stack, returns its address, and comes
back on the old stack. -/
theorem initStack_frame (hrdi : s.reg .rdi = L.preemptiveStack) :
    ∃ (F : Frame) (base : Word), Holds (execs L.env ν initStack s).mem (base - 144) F.words ∧
      384 < (L.stack .preemptive).pos base ∧
      (L.stack .preemptive).pos base ≤ (L.stack .preemptive).size ∧
      L.Fits .preemptive F.rsp ∧
      (execs L.env ν initStack s).reg .rax = base - 144 ∧
      (execs L.env ν initStack s).reg .rsp = s.reg .rsp + 8 ∧
      (execs L.env ν initStack s).world = s.world := by
  have hsize := L.size_preemptive
  obtain ⟨n, hn, hmask⟩ := and_mask (s.reg .rdi)
  obtain ⟨base, hbase⟩ : ∃ base, base = s.reg .rdi - BitVec.ofNat 64 n := ⟨_, rfl⟩
  -- the stack pointer is rounded down by less than 16
  have hpos : 1024 ≤ (L.stack .preemptive).pos base ∧
      (L.stack .preemptive).pos base ≤ (L.stack .preemptive).size := by
    rw [hbase, hrdi, hsize]
    simp only [Layout.preemptiveStack, Stack.pos]
    bv_omega
  have htop : L.Fits .preemptive (s.reg .rdi) := by
    rw [hrdi, Layout.Fits, hsize]
    simp only [Layout.preemptiveStack, Stack.pos]
    bv_omega
  have hlo : 384 < (L.stack .preemptive).pos base := by omega
  have hR := L.room_respected .preemptive base hlo hpos.2
  obtain ⟨s1, hs1⟩ : ∃ s1, s1 = execs L.env ν
      [.endbr64, .mov .rsp .rcx, .mov .rdi .rsp, .and 0xfffffffffffffff0 .rsp] s := ⟨_, rfl⟩
  have hsp1 : s1.reg .rsp = base := by
    rw [hs1, hbase, ← hmask]
    rfl
  have h1 : View (L.room .preemptive base hlo hpos.2) s1.mem (s1.shadow []) s1 :=
    View.of_base hsp1
  have h2 : View (L.room .preemptive base hlo hpos.2) s1.mem
      (s1.shadow [some (s1.reg .rsi), some s1.rflags, some (s1.reg .rdi)])
      (execs L.env ν [.push .rdi, .pushfq, .push .rsi] s1) := h1.execs hR L.env_silent rfl
  have hregs : Reg.rsp ∉ initRegs := by decide
  have h3 := h2.pushes (E := L.env) (ν := ν) hregs (show 3 + 15 ≤ 48 by norm_num)
  obtain ⟨F, hF⟩ : ∃ F : Frame, F = ⟨Function.update s1.reg .rbp (s1.reg .rdi), s1.reg .rsi,
    s1.rflags, s1.reg .rdi⟩ := ⟨_, rfl⟩
  obtain ⟨u, hu⟩ : ∃ u, u = execs L.env ν (initRegs.map .push)
    (execs L.env ν [.push .rdi, .pushfq, .push .rsi] s1) := ⟨_, rfl⟩
  have h4 : View (L.room .preemptive base hlo hpos.2) s1.mem (s1.shadow F.words) u := by
    rw [hu, hF]
    exact h3
  -- the rest of the code returns the address and restores the stack pointer
  have hcode : execs L.env ν initStack s =
      execs L.env ν [.mov .rsp .rax, .mov .rcx .rsp, .ret] u := by
    rw [hu, hs1, ← execs_append, ← execs_append, ← execs_append]
    rfl
  have husp : u.reg .rsp = base - 144 := h4.rsp
  have hucx : u.reg .rcx = s.reg .rsp := by
    rw [h4.reg .rcx (by decide), hs1]
    rfl
  rw [hcode]
  refine ⟨F, base, ?_, hlo, hpos.2, ?_, ?_, ?_, ?_⟩
  · rw [← husp]
    exact h4.holds
  · rw [hF, hs1]
    exact htop
  · rw [← husp]
    rfl
  · rw [← hucx]
    rfl
  · exact h4.world.trans (by rw [hs1]; rfl)

/-- The contexts are set up with the main one running. -/
theorem setupContexts_mainRuns {fn ret fs gs : Word}
    (hc : getCurrentContext L s.world = L.ctx .main) (hfits : L.Fits .main (s.reg .rsp)) :
    MainRuns L (setupContexts L ν fn ret fs gs s) := by
  obtain ⟨b, hb⟩ : ∃ b, b = ((s.set .rdi L.preemptiveStack).set .rsi fn).push ret := ⟨_, rfl⟩
  obtain ⟨u, hu⟩ : ∃ u, u = execs L.env ν initStack b := ⟨_, rfl⟩
  obtain ⟨F, base, hF, hlo, hhi, hFfits, hax, hsp, hworld⟩ :=
    initStack_frame (ν := ν) (show b.reg .rdi = L.preemptiveStack by rw [hb]; rfl)
  rw [← hu] at hF hax hsp hworld
  have hbsp : b.reg .rsp = s.reg .rsp - 8 := by rw [hb]; rfl
  have hbw : b.world = s.world := by rw [hb]; rfl
  rw [setupContexts, ← hb, ← hu]
  have hapart : ∀ p x, Span (Layout.fsField p) 8 x → ¬ Span (Layout.gsField p) 8 x := by
    intro p x hx
    simp only [Layout.fsField, Layout.gsField, Span] at hx ⊢
    bv_omega
  have hreg0 : ∀ c x, Span (Layout.reg0 (L.ctx .preemptive)) 8 x →
      ¬ Span (Layout.fsField (L.ctx c)) 8 x ∧ ¬ Span (Layout.gsField (L.ctx c)) 8 x :=
    fun c x hx => ⟨fun h => Layout.reg0_apart (.inl rfl) h hx,
      fun h => Layout.reg0_apart (.inr rfl) h hx⟩
  refine ⟨?_, ?_, ?_, (load_store _ _ _).symm, F, base, ?_, ?_, hlo, hhi, hFfits⟩
  · rw [hworld, hbw]
    exact hc
  · rw [hsp, hbsp, BitVec.sub_add_cancel]
    exact hfits
  · rw [load_store_of_disjoint (hapart _), load_store]
  · rw [load_store_of_disjoint fun x hx => (hreg0 _ x hx).2,
      load_store_of_disjoint fun x hx => (hreg0 _ x hx).1,
      load_store_of_disjoint fun x hx => (hreg0 _ x hx).2,
      load_store_of_disjoint fun x hx => (hreg0 _ x hx).1, load_store, hax]
  · refine hF.congr (show 8 * 18 ≤ 2 ^ 64 by norm_num) fun x hx => ?_
    have hpos := Stack.pos_of_span (k := L.stack .preemptive) (n := 144) (by omega) hx
    have hhas : (L.stack .preemptive).Has x := Nat.lt_of_lt_of_le hpos.2 hhi
    -- the fields lie outside the stack
    have hne : ∀ c, ¬ L.Field c x := fun c hf => hf.not_stack hhas
    dsimp only
    rw [store_of_not_span fun h => hne .main (.inr (.inr h)),
      store_of_not_span fun h => hne .main (.inr (.inl h)),
      store_of_not_span fun h => hne .preemptive (.inr (.inr h)),
      store_of_not_span fun h => hne .preemptive (.inr (.inl h)),
      store_of_not_span fun h => hne .preemptive (.inl h)]

end Setup

section Modes

theorem MainRuns.congr (h : MainRuns L s) (hcur : getCurrentContext L s'.world = L.ctx .main)
    (hfits : L.Fits .main (s'.reg .rsp)) (hfs : s'.fs = s.fs) (hgs : s'.gs = s.gs)
    (hfield : ∀ d x, L.Field d x → s'.mem x = s.mem x)
    (hstack : ∀ x, (L.stack .preemptive).Has x → s'.mem x = s.mem x) : MainRuns L s' := by
  obtain ⟨F, base, hP⟩ := h.parked
  refine ⟨hcur, hfits, ?_, ?_, F, base, hP.congr (fun x hx => hfield _ x (.inl hx)) hstack⟩
  · rw [hfs, h.fs]
    exact (load_congr fun x hx => hfield .main x (.inr (.inl hx))).symm
  · rw [hgs, h.gs]
    exact (load_congr fun x hx => hfield .main x (.inr (.inr hx))).symm

/-- With the counter at zero, an interrupt of the main context starts a preemption. -/
theorem MainRuns.preempt (h : MainRuns L s) (hout : ¬ L.InSwap s.rip)
    (hlock : s.world.lockCounter s.fs = 0) (v : Word) : Preempting L s (interrupt L ν v s) := by
  obtain ⟨F, base, hP⟩ := h.parked
  obtain ⟨m', hm, hsus, hfield⟩ := interrupt_switch (ν := ν) (v := v) h.fits hout h.cur h.fs h.gs
    hlock hP
  rw [hm]
  refine ⟨?_, ?_, ?_, ?_, h.fits, hsus⟩
  · exact if_neg (L.ctx_ne_null .preemptive)
  · rw [Frame.state]
    simp only [update_self]
    exact hP.fits
  · exact (load_congr fun x hx =>
      hfield .preemptive x (.inr (.inl hx)) (Layout.reg0_apart (.inl rfl) hx)).symm
  · exact (load_congr fun x hx =>
      hfield .preemptive x (.inr (.inr hx)) (Layout.reg0_apart (.inr rfl) hx)).symm

/-- Any interrupt of the main context. -/
theorem MainRuns.interrupt (h : MainRuns L s) (v : Word) :
    MainRuns L (interrupt L ν v s) ∨ Preempting L s (interrupt L ν v s) := by
  have hlo := h.fits.lo
  have hne : Ctx.main ≠ .preemptive := by decide
  have hundone : ∀ m', (∀ x, L.Kept (s.reg .rsp - 128) x → m' x = s.mem x) →
      MainRuns L { s with uif := true, mem := m' } := fun m' hm' =>
    h.congr h.cur h.fits rfl rfl (fun d x hx => hm' x (.inl ⟨d, hx⟩)) fun x hx =>
      hm' x (Layout.kept_other hne (by omega) h.fits.hi hx)
  by_cases hin : L.InSwap s.rip
  · obtain ⟨m', hm, hkept⟩ := interrupt_quick (ν := ν) (v := v) h.fits hin
    exact .inl (hm ▸ hundone m' hkept)
  rcases Nat.eq_zero_or_pos (s.world.lockCounter s.fs) with hlock | hlock
  · exact .inr (h.preempt hin hlock v)
  · obtain ⟨m', hm, hkept⟩ := interrupt_locked (ν := ν) (v := v) h.fits hin hlock
    exact .inl (hm ▸ hundone m' hkept)

theorem MainRuns.step (h : MainRuns L s) (hstep : Cpu.Step L s t) :
    MainRuns L t ∨ Preempting L s t := by
  cases hstep with
  | @code c _ _ hc hcode =>
    obtain rfl : c = .main := L.ctx_injective (hc.symm.trans h.cur)
    refine .inl (h.congr ?_ hcode.fits hcode.fs hcode.gs hcode.field fun x hx =>
      hcode.other .preemptive x nofun hx)
    rw [getCurrentContext, hcode.currCtx]
    exact h.cur
  | interrupt ν v _ => exact h.interrupt v
  | swap hc _ => exact absurd (h.cur.symm.trans hc) L.ctx_ne

theorem Preempting.step (h : Preempting L s0 s) (hstep : Cpu.Step L s t) :
    Preempting L s0 t ∨ MainRuns L t := by
  cases hstep with
  | @code c _ _ hc hcode =>
    obtain rfl : c = .preemptive := L.ctx_injective (hc.symm.trans h.cur)
    refine .inl (h.congr ?_ hcode.fits hcode.fs hcode.gs
      ⟨fun x hx => hcode.other .main x nofun hx, fun d x hx _ => hcode.field d x hx⟩)
    rw [getCurrentContext, hcode.currCtx]
    exact h.cur
  | interrupt ν v _ => exact .inl (h.interrupt ν v).1
  | swap _ hswap =>
    obtain ⟨⟨m', w, rfl, hw, _, hfs, hgs⟩, hP⟩ := swap_resumes h hswap
    refine .inr ⟨?_, h.fits_main, hfs.symm, hgs.symm, hP⟩
    rw [getCurrentContext, hw]
    exact if_neg (L.ctx_ne_null .main)

/-- One of the two contexts runs, and the other one is ready to. -/
theorem Cpu.Reached.mode (h : Cpu.Reached L s) : MainRuns L s ∨ ∃ s0, Preempting L s0 s := by
  induction h with
  | setup ν fn ret fs gs hc hfits => exact .inl (setupContexts_mainRuns hc hfits)
  | step _ hstep ih =>
    rcases ih with hmain | ⟨s0, hpre⟩
    · exact (hmain.step hstep).imp id fun h => ⟨_, h⟩
    · exact ((hpre.step hstep).imp (fun h => ⟨s0, h⟩) id).symm

end Modes

/-- Which context runs after an interrupt. -/
theorem Cpu.Reached.interrupt_current (h : Cpu.Reached L s) (v : Word) :
    (interrupt L ν v s).uif = true ∧ getCurrentContext L (interrupt L ν v s).world =
      if L.InSwap s.rip ∨ 0 < s.world.lockCounter s.fs then getCurrentContext L s.world
      else L.ctx .preemptive := by
  obtain ⟨c, hfits⟩ : ∃ c, L.Fits c (s.reg .rsp) := by
    rcases h.mode with hmain | ⟨s0, hpre⟩
    · exact ⟨_, hmain.fits⟩
    · exact ⟨_, hpre.fits⟩
  by_cases hin : L.InSwap s.rip
  · obtain ⟨m', hm, _⟩ := interrupt_quick (ν := ν) (v := v) hfits hin
    rw [hm, if_pos (.inl hin)]
    exact ⟨rfl, rfl⟩
  rcases Nat.eq_zero_or_pos (s.world.lockCounter s.fs) with hlock | hlock
  · have hne : ¬ (L.InSwap s.rip ∨ 0 < s.world.lockCounter s.fs) :=
      not_or.mpr ⟨hin, by omega⟩
    rw [if_neg hne]
    rcases h.mode with hmain | ⟨s0, hpre⟩
    · obtain ⟨F, base, hP⟩ := hmain.parked
      obtain ⟨m', hm, _⟩ := interrupt_switch (ν := ν) (v := v) hmain.fits hin hmain.cur hmain.fs
        hmain.gs hlock hP
      exact ⟨by rw [hm]; rfl, (hmain.preempt hin hlock v).cur⟩
    · obtain ⟨m', hm, _⟩ := interrupt_self (ν := ν) (v := v) hpre.fits hin hpre.cur hpre.fs hpre.gs
        hlock
      exact ⟨by rw [hm], (hpre.interrupt ν v).1.cur⟩
  · obtain ⟨m', hm, _⟩ := interrupt_locked (ν := ν) (v := v) hfits hin hlock
    rw [hm, if_pos (.inr hlock)]
    exact ⟨rfl, rfl⟩

/-- A step after which the preemptive context is the current one. -/
def Cpu.PreemptiveStep (L : Layout) (s t : Cpu) : Prop :=
  Cpu.Step L s t ∧ getCurrentContext L t.world = L.ctx .preemptive

/-- The main context is interrupted in the state `s0`, outside `swap_context` and
with its lock counter at zero.  The preemptive context runs, calls
`swap_context`, and the main one goes on in the state `s`. -/
structure Preemption (L : Layout) (s0 s : Cpu) : Prop where
  reached : Cpu.Reached L s0
  cur : getCurrentContext L s0.world = L.ctx .main
  uif : s0.uif = true
  unlocked : s0.world.lockCounter s0.fs = 0
  outside : ¬ L.InSwap s0.rip
  run : ∃ ν v s1, Relation.ReflTransGen (Cpu.PreemptiveStep L) (interrupt L ν v s0) s1 ∧
    SwapCall L .preemptive .main s1 s

/-- The main context goes on in `s` as it was in `s0`: RIP, the general registers
with RSP, RFLAGS, the bases, and the stack from the red zone on. -/
structure Transparent (L : Layout) (s0 s : Cpu) : Prop where
  rip : s.rip = s0.rip
  reg : s.reg = s0.reg
  rflags : s.rflags = s0.rflags
  fs : s.fs = s0.fs
  gs : s.gs = s0.gs
  bytes : ∀ x, (L.stack .main).Has x →
    (L.stack .main).pos (s0.reg .rsp - 128) ≤ (L.stack .main).pos x → s.mem x = s0.mem x

theorem Preempting.steps (h : Preempting L s0 s)
    (hrun : Relation.ReflTransGen (Cpu.PreemptiveStep L) s t) : Preempting L s0 t := by
  induction hrun with
  | refl => exact h
  | tail _ hstep ih =>
    refine (ih.step hstep.1).resolve_right fun hmain => ?_
    exact L.ctx_ne (hmain.cur.symm.trans hstep.2)

/-- What the main context finds after a preemption. -/
theorem Preemption.resumes (h : Preemption L s0 s) : L.Fits .main (s0.reg .rsp) ∧
    ∃ m' w, s = ⟨s0.reg, s0.rip, s0.rflags, s0.fs, s0.gs, true, m', w⟩ ∧
      ∀ x, (L.stack .main).Has x →
        (L.stack .main).pos (s0.reg .rsp - 128) ≤ (L.stack .main).pos x →
        m' x = WordMem.store s0.mem (s0.reg .rsp - 128) s0.rip x := by
  have hmain : MainRuns L s0 := by
    refine h.reached.mode.resolve_right fun hpre => ?_
    obtain ⟨_, hpre⟩ := hpre
    exact L.ctx_ne (h.cur.symm.trans hpre.cur)
  obtain ⟨ν, v, s1, hrun, hswap⟩ := h.run
  have hpre := (hmain.preempt (ν := ν) h.outside h.unlocked v).steps hrun
  obtain ⟨⟨m', w, hs, _, hbytes, _⟩, _⟩ := swap_resumes hpre hswap
  exact ⟨hmain.fits, m', w, hs, hbytes⟩

/-- A preemption is transparent just when the eight bytes at RSP - 128 of the
interrupted code hold its RIP: `swap_context` passes the return address through
them. -/
theorem preemption_transparent_iff (h : Preemption L s0 s) :
    Transparent L s0 s ↔ load s0.mem (s0.reg .rsp - 128) = s0.rip := by
  obtain ⟨hfits, m', w, rfl, hbytes⟩ := h.resumes
  constructor
  · intro ht
    rw [← load_store s0.mem (s0.reg .rsp - 128) s0.rip]
    refine load_congr fun x hx => ?_
    obtain ⟨hhas, hge⟩ := hfits.has_redZone hx
    exact (ht.bytes x hhas hge).symm.trans (hbytes x hhas hge)
  · intro hload
    rw [← hload, store_load] at hbytes
    exact ⟨rfl, rfl, rfl, rfl, rfl, hbytes⟩

section Instance

/-- Four bytes for each instruction, and everything below 4 GiB. -/
def exampleLayout : Layout where
  stack
    | .main => ⟨0x10000000, 0x100000⟩
    | .preemptive => ⟨0x20000000, 16 * 1024 * 1024⟩
  ctx
    | .main => 0x30000000
    | .preemptive => 0x30004000
  swapAddr := 0x1000
  handlerAddr := 0x2000
  len _ := 4
  len_pos _ := by norm_num
  swap_fits := by decide
  ctx_ne_null c := by cases c <;> decide
  size_preemptive := rfl
  size_le c := by cases c <;> norm_num
  stacks_apart x hx := by
    simp only [Stack.Has, Span] at hx ⊢
    bv_omega
  ctx_apart x hx := by
    simp only [Span] at hx ⊢
    bv_omega
  ctx_stack_apart c c' x hx := by
    cases c <;> cases c' <;>
      · simp only [Stack.Has, Span] at hx ⊢
        bv_omega

/-- Helpers that leave zeros behind. -/
def zeroClobber : Helper → Clobber := fun _ => ⟨fun _ => 0, 0, fun _ => 0⟩

/-- A run of instructions without interrupts. -/
theorem Runs.of_execs (ν : Helper → Clobber) (a : Word) (is : List Asm) (s : Cpu) :
    Runs L ν a is s (execs L.env ν is s) := by
  induction is generalizing a s with
  | nil => exact .done a s
  | cons i is ih => exact .instr (ih _ _)

/-- The main context may get to `ip`, with the word `w` at the low end of its red
zone, and be preempted there. -/
theorem exists_preemption (hreached : Cpu.Reached L s) (hmain : MainRuns L s) (w ip : Word)
    (hip : ¬ L.InSwap ip) :
    ∃ s0 t, Preemption L s0 t ∧ s0.rip = ip ∧ load s0.mem (s0.reg .rsp - 128) = w := by
  obtain ⟨s0, hs0⟩ : ∃ s0 : Cpu, s0 = { s with
    rip := ip
    uif := true
    mem := WordMem.store s.mem (s.reg .rsp - 128) w
    world := { s.world with lockCounter := fun _ => 0 } } := ⟨_, rfl⟩
  have hstep : Cpu.Step L s s0 := by
    rw [hs0]
    refine .code hmain.cur ⟨rfl, rfl, rfl, fun c x hx => ?_, fun c x hc hx => ?_, hmain.fits⟩
    · exact store_of_not_span fun h => hx.not_stack (hmain.fits.has_redZone h).1
    · exact store_of_not_span fun h => Layout.apart hc hx (hmain.fits.has_redZone h).1
  have hcur : getCurrentContext L s0.world = L.ctx .main := by
    rw [hs0]
    exact hmain.cur
  have hmain0 : MainRuns L s0 := (hmain.step hstep).resolve_right fun hpre =>
    L.ctx_ne (hcur.symm.trans hpre.cur)
  have hlock : s0.world.lockCounter s0.fs = 0 := by rw [hs0]
  have hrip : s0.rip = ip := by rw [hs0]
  have hpre : Preempting L s0 (interrupt L zeroClobber 0 s0) := hmain0.preempt (hrip ▸ hip) hlock 0
  obtain ⟨s1, hs1⟩ : ∃ s1, s1 = interrupt L zeroClobber 0 s0 := ⟨_, rfl⟩
  rw [← hs1] at hpre
  -- the preemptive context calls `swap_context`
  obtain ⟨sp, hsp⟩ : ∃ sp, sp = (L.stack .preemptive).lo + 1024 := ⟨_, rfl⟩
  have hpos : (L.stack .preemptive).pos sp = 1024 := by
    rw [hsp, Stack.pos]
    bv_omega
  have hsize := L.size_preemptive
  let ρ : Reg → Word :=
    Function.update (Function.update (fun _ => sp) .rdi (L.ctx .preemptive)) .rsi (L.ctx .main)
  have hcall : Cpu.Step L s1 { s1 with rip := L.swapAddr, reg := ρ } :=
    .code hpre.cur ⟨rfl, rfl, rfl, fun _ _ _ => rfl, fun _ _ _ _ => rfl, hpos.ge, by
      change (L.stack .preemptive).pos sp ≤ _
      omega⟩
  refine ⟨s0, _, ⟨.step hreached hstep, hcur, by rw [hs0], hlock, hrip ▸ hip, zeroClobber, 0,
    { s1 with rip := L.swapAddr, reg := ρ }, hs1 ▸ .single ⟨hcall, hpre.cur⟩, rfl, rfl, rfl, ?_,
    zeroClobber, Runs.of_execs _ _ _ _⟩, hrip, ?_⟩
  · change (L.stack .preemptive).pos sp + 8 ≤ _
    omega
  · rw [hs0]
    exact load_store _ _ _

/-- Some state in which the main context runs. -/
theorem exampleLayout_reached : ∃ s, Cpu.Reached exampleLayout s ∧ MainRuns exampleLayout s := by
  let boot : Cpu := ⟨fun _ => 0x10080000, 0, 0, 0, 0, true, fun _ => 0, ⟨fun _ => 0, 0⟩⟩
  have hfits : exampleLayout.Fits .main (boot.reg .rsp) := by
    constructor <;> decide
  exact ⟨_, .setup zeroClobber 0 0 0 0 rfl hfits, setupContexts_mainRuns rfl hfits⟩

/-- A preemption at address 5 that overwrites nothing. -/
theorem preemption_transparent_of_rip : ∃ s0 s, Preemption exampleLayout s0 s ∧
    Transparent exampleLayout s0 s := by
  obtain ⟨b, hreached, hmain⟩ := exampleLayout_reached
  obtain ⟨s0, s, h, hrip, hload⟩ := exists_preemption hreached hmain 5 5 (by decide)
  exact ⟨s0, s, h, (preemption_transparent_iff h).mpr (hload.trans hrip.symm)⟩

/-- A preemption at address 5 of a function with the word 7 at the low end of its
red zone: it finds 5 there. -/
theorem preemption_clobbers_redZone : ∃ s0 s, Preemption exampleLayout s0 s ∧
    load s0.mem (s0.reg .rsp - 128) = 7 ∧ load s.mem (s.reg .rsp - 128) = 5 ∧
    ¬ Transparent exampleLayout s0 s := by
  obtain ⟨b, hreached, hmain⟩ := exampleLayout_reached
  obtain ⟨s0, s, h, hrip, hload⟩ := exists_preemption hreached hmain 7 5 (by decide)
  obtain ⟨hfits, m', w, rfl, hbytes⟩ := h.resumes
  have hfive : load m' (s0.reg .rsp - 128) = 5 := by
    rw [← hrip, ← load_store s0.mem (s0.reg .rsp - 128) s0.rip]
    refine load_congr fun x hx => ?_
    exact hbytes x (hfits.has_redZone hx).1 (hfits.has_redZone hx).2
  refine ⟨s0, _, h, hload, hfive, fun ht => ?_⟩
  have hsame : load m' (s0.reg .rsp - 128) = load s0.mem (s0.reg .rsp - 128) :=
    load_congr fun x hx => ht.bytes x (hfits.has_redZone hx).1 (hfits.has_redZone hx).2
  rw [hfive, hload] at hsame
  exact absurd hsame (by decide)

end Instance

end PreemptDB
