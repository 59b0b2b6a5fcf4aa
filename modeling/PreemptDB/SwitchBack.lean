/-
Going back to the main context.

`swap_context` runs with interrupts masked from its second instruction on; the
last one, `jmp`, may be interrupted again, but is in the range of the quick
exit.  The return address passes through the eight bytes at RSP - 128 of the
resumed code.

* `Preempting s0 s` — the preemptive context runs, and the main one was
  interrupted in the state `s0`;
* `swap_resumes` — the state in which the main context goes on.
-/
import PreemptDB.SwitchFrame

namespace PreemptDB

open Function WordMem X86

variable {L : Layout} {s s' s0 t : Cpu} {ν : Helper → Clobber} {a : Word}

theorem Suspended.congr {m m' : Mem} (hfits : L.Fits .main (s0.reg .rsp))
    (hfield : ∀ x, L.Field .main x → m' x = m x)
    (hstack : ∀ x, (L.stack .main).Has x → m' x = m x) (h : Suspended L s0 m) :
    Suspended L s0 m' := by
  refine ⟨?_, ?_, ?_, ?_, fun x hx hge => (hstack x hx).trans (h.bytes x hx hge)⟩
  · rw [← h.reg0]
    exact load_congr fun x hx => hfield x (.inl hx)
  · exact h.frame.congr (show 8 * 18 ≤ 2 ^ 64 by norm_num) fun x hx =>
      (hstack x (hfits.has_frame hx)).symm
  · rw [← h.fs]
    exact load_congr fun x hx => hfield x (.inr (.inl hx))
  · rw [← h.gs]
    exact load_congr fun x hx => hfield x (.inr (.inr hx))

/-- The preemptive context runs, and the main one was interrupted in `s0`. -/
structure Preempting (L : Layout) (s0 s : Cpu) : Prop where
  cur : getCurrentContext L s.world = L.ctx .preemptive
  fits : L.Fits .preemptive (s.reg .rsp)
  fs : s.fs = load s.mem (Layout.fsField (L.ctx .preemptive))
  gs : s.gs = load s.mem (Layout.gsField (L.ctx .preemptive))
  fits_main : L.Fits .main (s0.reg .rsp)
  suspended : Suspended L s0 s.mem

/-- The memory that counts while the preemptive context runs: the stack of the
main one, and the fields other than `reg[0]` of the running one. -/
def Unchanged (L : Layout) (m m' : Mem) : Prop :=
  (∀ x, (L.stack .main).Has x → m' x = m x) ∧
    ∀ d x, L.Field d x → ¬ Span (Layout.reg0 (L.ctx .preemptive)) 8 x → m' x = m x

theorem Preempting.congr (h : Preempting L s0 s)
    (hcur : getCurrentContext L s'.world = L.ctx .preemptive)
    (hfits : L.Fits .preemptive (s'.reg .rsp)) (hfs : s'.fs = s.fs) (hgs : s'.gs = s.gs)
    (hmem : Unchanged L s.mem s'.mem) : Preempting L s0 s' := by
  have hmain : ∀ x, L.Field .main x → s'.mem x = s.mem x := fun x hx =>
    hmem.2 .main x hx fun hspan => nomatch Layout.Field.unique hx (.inl hspan)
  refine ⟨hcur, hfits, ?_, ?_, h.fits_main, h.suspended.congr h.fits_main hmain hmem.1⟩
  · rw [hfs, h.fs]
    refine load_congr fun x hx => (hmem.2 .preemptive x (.inr (.inl hx)) ?_).symm
    exact Layout.reg0_apart (.inl rfl) hx
  · rw [hgs, h.gs]
    refine load_congr fun x hx => (hmem.2 .preemptive x (.inr (.inr hx)) ?_).symm
    exact Layout.reg0_apart (.inr rfl) hx

/-- An interrupt of the preemptive context comes back to it. -/
theorem Preempting.interrupt (h : Preempting L s0 s) (ν : Helper → Clobber) (v : Word) :
    Preempting L s0 (interrupt L ν v s) ∧ (interrupt L ν v s).reg = s.reg := by
  have hlo := h.fits.lo
  have hne : Ctx.preemptive ≠ .main := by decide
  have hstack : ∀ x, (L.stack .main).Has x → L.Kept (s.reg .rsp - 128) x := fun x hx =>
    Layout.kept_other hne (by omega) h.fits.hi hx
  -- whatever is kept below the red zone of the interrupted code is unchanged
  have hundone : ∀ m', (∀ x, L.Kept (s.reg .rsp - 128) x → m' x = s.mem x) →
      Unchanged L s.mem m' := fun m' hm' =>
    ⟨fun x hx => hm' x (hstack x hx), fun d x hx _ => hm' x (.inl ⟨d, hx⟩)⟩
  by_cases hin : L.InSwap s.rip
  · obtain ⟨m', hm, hkept⟩ := interrupt_quick (ν := ν) (v := v) h.fits hin
    rw [hm]
    exact ⟨h.congr h.cur h.fits rfl rfl (hundone m' hkept), rfl⟩
  rcases Nat.eq_zero_or_pos (s.world.lockCounter s.fs) with hlock | hlock
  · obtain ⟨m', hm, hkept⟩ := interrupt_self (ν := ν) (v := v) h.fits hin h.cur h.fs h.gs hlock
    rw [hm]
    refine ⟨h.congr ?_ h.fits rfl rfl ⟨fun x hx => hkept x (hstack x hx) ?_,
      fun d x hx => hkept x (.inl ⟨d, hx⟩)⟩, rfl⟩
    · exact if_neg (L.ctx_ne_null .preemptive)
    · exact fun hspan => Layout.Field.not_stack (.inl hspan) hx
  · obtain ⟨m', hm, hkept⟩ := interrupt_locked (ν := ν) (v := v) h.fits hin hlock
    rw [hm]
    exact ⟨h.congr h.cur h.fits rfl rfl (hundone m' hkept), rfl⟩

section Runs

variable {i : Asm} {is js : List Asm}

/-- What interrupts at an instruction preserve holds when it is executed. -/
theorem Runs.head {I : Cpu → Prop} (hI : I s)
    (hstep : ∀ u ν' v, I u → u.uif = true → I (PreemptDB.interrupt L ν' v { u with rip := a }))
    (h : Runs L ν a (i :: is) s t) :
    ∃ u, I u ∧ Runs L ν (addrAfter L.len a [i]) is (exec L.env ν i u) t := by
  generalize hl : i :: is = l at h
  induction h with
  | done => cases hl
  | instr h _ =>
    cases hl
    exact ⟨_, hI, h⟩
  | interrupt ν' v huif _ _ ih => exact ih (hstep _ ν' v hI huif) hstep hl

/-- The instruction changes the interrupt flag. -/
def flipsUif : Asm → Bool
  | .clui | .stui | .uiret => true
  | _ => false

theorem exec_uif (hi : flipsUif i = false) (u : Cpu) : (exec L.env ν i u).uif = u.uif := by
  cases i with
  | call f =>
    cases f with
    | handlerHelper =>
      change (handlerHelperCall L _ _).uif = _
      rw [handlerHelperCall]
      split <;> rfl
    | _ => rfl
  | clui => cases hi
  | stui => cases hi
  | uiret => cases hi
  | _ => rfl

theorem addrAfter_append (a : Word) (is js : List Asm) :
    addrAfter L.len (addrAfter L.len a is) js = addrAfter L.len a (is ++ js) := by
  rw [addrAfter, addrAfter, addrAfter, List.map_append, List.sum_append, BitVec.ofNat_add,
    BitVec.add_assoc]

/-- With interrupts masked, a block runs as a whole. -/
theorem Runs.masked : ∀ {is : List Asm} {a : Word} {s : Cpu}, Runs L ν a (is ++ js) s t →
    s.uif = false → is.all (fun i => !flipsUif i) = true →
    Runs L ν (addrAfter L.len a is) js (execs L.env ν is s) t := by
  intro is
  induction is with
  | nil =>
    intro a s h _ _
    simpa [addrAfter, execs] using h
  | cons i is ih =>
    intro a s h huif hall
    rw [List.all_cons, Bool.and_eq_true, Bool.not_eq_true'] at hall
    -- no interrupt can come before `i`
    obtain ⟨u, rfl, hu⟩ := h.head (I := fun u => u = s) rfl fun u _ _ hu huu => by
      rw [hu, huif] at huu
      cases huu
    have hrest := ih hu (by rw [exec_uif hall.1, huif]) hall.2
    rw [addrAfter_append] at hrest
    exact hrest

/-- All instructions of `swap_context` but the first are in the range of the
quick exit. -/
theorem inSwap_addrAfter (hcode : swapContext = is ++ js) (hne : is ≠ []) :
    L.InSwap (addrAfter L.len L.swapAddr is) := by
  have hfit := L.swap_fits
  have hsum : (swapContext.map L.len).sum = (is.map L.len).sum + (js.map L.len).sum := by
    rw [hcode, List.map_append, List.sum_append]
  have hpos : 0 < (is.map L.len).sum := by
    cases is with
    | nil => exact absurd rfl hne
    | cons i is =>
      rw [List.map_cons, List.sum_cons]
      exact Nat.add_pos_left (L.len_pos i) _
  have htoInt : ∀ {n : ℕ}, L.swapAddr.toNat + n < 2 ^ 63 →
      (L.swapAddr + BitVec.ofNat 64 n).toInt = L.swapAddr.toNat + n := by
    intro n hn
    rw [BitVec.toInt_eq_toNat_of_lt (by rw [BitVec.toNat_add, BitVec.toNat_ofNat]; omega),
      BitVec.toNat_add, BitVec.toNat_ofNat]
    omega
  have hstart : L.swapAddr.toInt = L.swapAddr.toNat := by
    have h := htoInt (n := 0) (by omega)
    simpa using h
  constructor
  · rw [BitVec.slt_eq_decide, decide_eq_false_iff_not, Layout.endSwapAddr, addrAfter, addrAfter,
      htoInt (by omega), htoInt (by omega)]
    omega
  · rw [BitVec.slt_eq_decide, decide_eq_true_iff, addrAfter, htoInt (by omega), hstart]
    omega

end Runs

theorem Parked.congr {m m' : Mem} {F : Frame} {base : Word} (h : Parked L m F base)
    (hfield : ∀ x, Span (Layout.reg0 (L.ctx .preemptive)) 8 x → m' x = m x)
    (hstack : ∀ x, (L.stack .preemptive).Has x → m' x = m x) : Parked L m' F base := by
  refine ⟨(load_congr hfield).trans h.reg0, ?_, h.lo, h.hi, h.fits⟩
  refine h.frame.congr (show 8 * 18 ≤ 2 ^ 64 by norm_num) fun x hx => (hstack x ?_).symm
  have hpos := Stack.pos_of_span (k := L.stack .preemptive) (n := 144) (by have := h.lo; omega) hx
  exact Nat.lt_of_lt_of_le hpos.2 h.hi

section Swap

/-- `swap_context` after `clui`, up to the switch of the stack. -/
def swapOutMasked : List Asm := swapOut.drop 2

/-- The frame that `swap_context` saves for its caller. -/
def Cpu.callFrame (s : Cpu) : Frame :=
  ⟨Function.update s.reg .rcx (load s.mem (s.reg .rsp)), load s.mem (s.reg .rsp), s.rflags,
    s.reg .rsp + 8⟩

/-- Before the switch of the stack, the frame of the caller is complete, `reg[0]`
points to it, and the bases of the main context are installed. -/
theorem swapOut_view {base : Word} (hlo : 384 < (L.stack .preemptive).pos base)
    (hhi : (L.stack .preemptive).pos base ≤ (L.stack .preemptive).size)
    (hbase : s.reg .rsp + 8 = base) (hrdi : s.reg .rdi = L.ctx .preemptive)
    (hrsi : s.reg .rsi = L.ctx .main) :
    ∃ ρ rflags, View (L.room .preemptive base hlo hhi)
        (WordMem.store s.mem (Layout.reg0 (L.ctx .preemptive)) (base - 144))
        ⟨ρ, rflags, load s.mem (Layout.fsField (L.ctx .main)),
          load s.mem (Layout.gsField (L.ctx .main)), s.uif,
          { s.world with currCtx := L.ctx .main }, s.callFrame.words⟩
        (execs L.env ν swapOutMasked s) ∧
      ρ .rsi = L.ctx .main := by
  have hR := L.room_respected .preemptive base hlo hhi
  have h0 : View (L.room .preemptive base hlo hhi) s.mem
      (s.shadow [some (load s.mem (s.reg .rsp))]) s := by
    refine ⟨show 1 ≤ 48 by norm_num, ?_, ⟨?_, trivial⟩, fun _ _ => rfl, fun _ _ => rfl, rfl, rfl,
      rfl, rfl, rfl⟩
    · change s.reg .rsp = base - 8
      rw [← hbase]
      bv_omega
    · rintro _ ⟨⟩
      rfl
  obtain ⟨u1, hu1⟩ : ∃ u, u = execs L.env ν [.pop .rcx, .push .rsp, .pushfq, .push .rcx] s :=
    ⟨_, rfl⟩
  have h1 : View (L.room .preemptive base hlo hhi) s.mem
      ⟨s.callFrame.reg, s.rflags, s.fs, s.gs, s.uif, s.world,
        [some s.callFrame.rip, some s.callFrame.rflags, some (base - 0)]⟩ u1 :=
    hu1 ▸ h0.execs hR L.env_silent rfl
  have hrsp : base - 0 = s.callFrame.rsp := by
    change base - 0#64 = s.reg .rsp + 8
    rw [BitVec.sub_zero, hbase]
  rw [hrsp] at h1
  have hframe : Reg.rsp ∉ frameRegs.reverse := by decide
  obtain ⟨u2, hu2⟩ : ∃ u, u = execs L.env ν (frameRegs.reverse.map .push) u1 := ⟨_, rfl⟩
  have h2 : View (L.room .preemptive base hlo hhi) s.mem
      ⟨s.callFrame.reg, s.rflags, s.fs, s.gs, s.uif, s.world, s.callFrame.words⟩ u2 :=
    hu2 ▸ h1.pushes hframe (show 3 + 15 ≤ 48 by norm_num)
  -- `current_context.reg[0] = rsp`
  obtain ⟨u3, hu3⟩ : ∃ u, u = exec L.env ν (.store .rsp 0x2000 .rdi) u2 := ⟨_, rfl⟩
  have h3 : View (L.room .preemptive base hlo hhi)
      (WordMem.store s.mem (Layout.reg0 (L.ctx .preemptive)) (base - 144))
      ⟨s.callFrame.reg, s.rflags, s.fs, s.gs, s.uif, s.world, s.callFrame.words⟩ u3 := by
    have hstore := h2.store (base - 144) fun y hy => reg0_not_span (d := .preemptive) h2 hy
    have hdi : u2.reg .rdi = L.ctx .preemptive := (h2.reg .rdi (by decide)).trans hrdi
    have hsp : u2.reg .rsp = base - 144 := h2.rsp
    rw [hu3, exec, hdi, hsp]
    exact hstore
  obtain ⟨u4, hu4⟩ : ∃ u, u = execs L.env ν [.push .rsi, .mov .rsi .rdi, .cld] u3 := ⟨_, rfl⟩
  have hsi : s.callFrame.reg .rsi = L.ctx .main := hrsi
  have h4 : View (L.room .preemptive base hlo hhi)
      (WordMem.store s.mem (Layout.reg0 (L.ctx .preemptive)) (base - 144))
      ⟨Function.update s.callFrame.reg .rdi (L.ctx .main), setFlag s.rflags 10 false, s.fs, s.gs,
        s.uif, s.world, some (L.ctx .main) :: s.callFrame.words⟩ u4 := by
    rw [hu4, ← hsi]
    exact h3.execs hR L.env_silent rfl
  obtain ⟨u5, hu5⟩ : ∃ u, u = exec L.env ν (.call .swapHelper) u4 := ⟨_, rfl⟩
  have h5 := enter_view (h4.clobber hR (ν .swapHelper)) .main
  have hcall : u5 = Cpu.enter (u4.clobber L.env (ν .swapHelper)) (L.ctx .main) := by
    have hdi : u4.reg .rdi = L.ctx .main := by simpa using h4.reg .rdi (by decide)
    rw [hu5, ← hdi]
    rfl
  rw [← hcall, load_store_of_disjoint fun x hx => Layout.reg0_apart (.inl rfl) hx,
    load_store_of_disjoint fun x hx => Layout.reg0_apart (.inr rfl) hx] at h5
  have h6 : View (L.room .preemptive base hlo hhi)
      (WordMem.store s.mem (Layout.reg0 (L.ctx .preemptive)) (base - 144))
      ⟨Function.update _ .rsi (L.ctx .main), _, _, _, s.uif, _, s.callFrame.words⟩
      (execs L.env ν [.pop .rsi] u5) := h5.execs hR L.env_silent rfl
  have hcode : execs L.env ν swapOutMasked s = execs L.env ν [.pop .rsi] u5 := by
    rw [hu5, hu4, hu3, hu2, hu1]
    rfl
  rw [hcode]
  exact ⟨_, _, h6, update_self _ _ _⟩

/-- `swap_context` on the stack of the next context, up to `stui`. -/
def swapInMasked : List Asm := swapIn.dropLast

/-- The registers are restored from the frame; RIP goes into the bytes at
RSP - 128. -/
theorem swapIn_state {u : Cpu} (hrsi : u.reg .rsi = L.ctx .main) (hs : Suspended L s0 u.mem)
    (hfits : L.Fits .main (s0.reg .rsp)) :
    ∃ ip m', execs L.env ν swapInMasked u =
        ⟨s0.reg, ip, s0.rflags, u.fs, u.gs, u.uif, m', u.world⟩ ∧
      ∀ x, L.Kept (s0.reg .rsp - 128) x →
        m' x = WordMem.store u.mem (s0.reg .rsp - 128) s0.rip x := by
  have hR := L.room_respected .main _ hfits.lo hfits.hi
  obtain ⟨u1, hu1⟩ : ∃ u', u' = exec L.env ν (.load 0x2000 .rsi .rsp) u := ⟨_, rfl⟩
  have h1 : View hfits.room u.mem (u.shadow s0.frame.words) u1 := by
    have hsp : u1 = u.set .rsp (s0.reg .rsp - 272) := by
      rw [hu1, exec, hrsi, ← hs.reg0]
      rfl
    have hbase : s0.reg .rsp - 272 = s0.reg .rsp - 128 - 144 := by bv_omega
    rw [hsp]
    refine ⟨show 18 ≤ 48 by norm_num, ?_, ?_, fun _ _ => rfl, fun r hr => u.reg_set_of_ne _ hr,
      rfl, rfl, rfl, rfl, rfl⟩
    · rw [State.reg_set_self, hbase]
      rfl
    · rw [State.reg_set_self]
      exact hs.frame
  have hregs : Reg.rsp ∉ frameRegs.take 13 := by decide
  obtain ⟨u2, hu2⟩ : ∃ u', u' = execs L.env ν ((frameRegs.take 13).map .pop) u1 := ⟨_, rfl⟩
  obtain ⟨ρ, hρ⟩ : ∃ ρ : Reg → Word,
      ρ = fun r => if r ∈ frameRegs.take 13 then s0.reg r else u.reg r := ⟨_, rfl⟩
  have h2 : View hfits.room u.mem
      ⟨ρ, u.rflags, u.fs, u.gs, u.uif, u.world,
        [some (s0.reg .rbx), some (s0.reg .rax), some s0.rip,
        some s0.rflags, some (s0.reg .rsp)]⟩ u2 :=
    hu2 ▸ hρ ▸ h1.pops hregs rfl
  obtain ⟨u3, hu3⟩ : ∃ u', u' = execs L.env ν [.load 32 .rsp .rax, .load 16 .rsp .rbx] u2 :=
    ⟨_, rfl⟩
  have h3 : View hfits.room u.mem
      ⟨Function.update (Function.update ρ .rax (s0.reg .rsp)) .rbx s0.rip, u.rflags, u.fs, u.gs,
        u.uif, u.world, [some (s0.reg .rbx), some (s0.reg .rax), some s0.rip, some s0.rflags,
          some (s0.reg .rsp)]⟩ u3 :=
    hu3 ▸ h2.execs hR L.env_silent rfl
  -- the return address goes right above the frame
  obtain ⟨u4, hu4⟩ : ∃ u', u' = exec L.env ν (.store .rbx (-0x80) .rax) u3 := ⟨_, rfl⟩
  have h4 : View hfits.room (WordMem.store u.mem (s0.reg .rsp - 128) s0.rip)
      ⟨Function.update (Function.update ρ .rax (s0.reg .rsp)) .rbx s0.rip, u.rflags, u.fs, u.gs,
        u.uif, u.world, [some (s0.reg .rbx), some (s0.reg .rax), some s0.rip, some s0.rflags,
          some (s0.reg .rsp)]⟩ u4 := by
    have hax : u3.reg .rax = s0.reg .rsp := by simpa using h3.reg .rax (by decide)
    have hbx : u3.reg .rbx = s0.rip := by simpa using h3.reg .rbx (by decide)
    have hsp : u3.reg .rsp = s0.reg .rsp - 128 - 40 := h3.rsp
    have haddr : s0.reg .rsp + (-0x80) = s0.reg .rsp - 128 := by bv_omega
    rw [hu4, exec, hax, hbx, haddr]
    refine h3.store s0.rip fun y hy hstack => ?_
    rw [hsp] at hstack
    change Span _ 40 y at hstack
    rw [Span] at hy hstack
    bv_omega
  obtain ⟨u5, hu5⟩ : ∃ u', u' = execs L.env ν [.pop .rbx, .pop .rax, .add 8 .rsp, .popfq] u4 :=
    ⟨_, rfl⟩
  have h5 : View hfits.room (WordMem.store u.mem (s0.reg .rsp - 128) s0.rip)
      ⟨Function.update (Function.update _ .rbx (s0.reg .rbx)) .rax (s0.reg .rax), s0.rflags, u.fs,
        u.gs, u.uif, u.world, [some (s0.reg .rsp)]⟩ u5 :=
    hu5 ▸ h4.execs hR L.env_silent rfl
  refine ⟨u5.rip, u5.mem, ?_, h5.kept⟩
  have hcode : execs L.env ν swapInMasked u = exec L.env ν (.pop .rsp) u5 := by
    rw [hu5, hu4, hu3, hu2, hu1]
    rfl
  have hreg : ((u5.set .rsp (u5.reg .rsp + 8)).set .rsp (s0.reg .rsp)).reg = s0.reg := by
    funext r
    by_cases hr : r = .rsp
    · rw [hr, State.reg_set_self]
    · rw [State.reg_set_of_ne _ _ hr, State.reg_set_of_ne _ _ hr, h5.reg r hr, hρ]
      cases r <;> first | rfl | contradiction
  rw [hcode, exec, h5.top rfl]
  exact State.ext hreg rfl h5.rflags h5.fs h5.gs h5.uif rfl h5.world

/-- The eight bytes at RSP - 128 are on the stack. -/
theorem Layout.Fits.has_redZone {c : Ctx} {sp x : Word} (h : L.Fits c sp)
    (hx : Span (sp - 128) 8 x) :
    (L.stack c).Has x ∧ (L.stack c).pos (sp - 128) ≤ (L.stack c).pos x := by
  have hsize := L.size_le c
  have hlo := h.1
  have hhi := h.2
  simp only [Stack.Has, Stack.pos, Span] at hx hlo hhi ⊢
  bv_omega

/-- The preemptive context has left: the state of the call is the one before it,
but for the flag and the memory that does not count. -/
theorem SwapCall.masked (h : Preempting L s0 s) (hswap : SwapCall L .preemptive .main s t) :
    ∃ ν w, Preempting L s0 w ∧ w.reg = s.reg ∧
      Runs L ν (addrAfter L.len L.swapAddr (swapOut ++ swapInMasked)) [.stui, .jmp (-0x80) .rsp]
        (execs L.env ν swapInMasked (execs L.env ν swapOutMasked w)) t ∧ w.uif = false := by
  obtain ⟨ν, hruns⟩ := hswap.runs
  have hstep : ∀ (a : Word) (u : Cpu) ν' v, Preempting L s0 u ∧ u.reg = s.reg → u.uif = true →
      Preempting L s0 (interrupt L ν' v { u with rip := a }) ∧
        (interrupt L ν' v { u with rip := a }).reg = s.reg := by
    rintro a u ν' v ⟨hu, hreg⟩ _
    have hrip : Preempting L s0 { u with rip := a } :=
      ⟨hu.cur, hu.fits, hu.fs, hu.gs, hu.fits_main, hu.suspended⟩
    exact ⟨(hrip.interrupt ν' v).1, (hrip.interrupt ν' v).2.trans hreg⟩
  obtain ⟨u1, hI1, hr1⟩ := hruns.head (I := fun u => Preempting L s0 u ∧ u.reg = s.reg) ⟨h, rfl⟩
    (hstep _)
  obtain ⟨u2, hI2, hr2⟩ := hr1.head (I := fun u => Preempting L s0 u ∧ u.reg = s.reg) hI1 (hstep _)
  obtain ⟨w, hw⟩ : ∃ w, w = exec L.env ν .clui u2 := ⟨_, rfl⟩
  rw [← hw] at hr2
  have huif : w.uif = false := by rw [hw]; rfl
  have hrest : Runs L ν _ ((swapOutMasked ++ swapInMasked) ++ [.stui, .jmp (-0x80) .rsp]) w t := hr2
  have hr3 := hrest.masked huif rfl
  rw [addrAfter_append, addrAfter_append, execs_append] at hr3
  refine ⟨ν, w, ?_, ?_, hr3, huif⟩
  · rw [hw]
    exact ⟨hI2.1.cur, hI2.1.fits, hI2.1.fs, hI2.1.gs, hI2.1.fits_main, hI2.1.suspended⟩
  · rw [hw]
    exact hI2.2

/-- The last two instructions.  Interrupts between them take the quick exit,
below the red zone of the resumed code. -/
theorem resume_jmp {u : Cpu} (hfits : L.Fits .main (u.reg .rsp)) (huif : u.uif = false)
    (h : Runs L ν (addrAfter L.len L.swapAddr (swapOut ++ swapInMasked))
      [.stui, .jmp (-0x80) .rsp] u t) :
    ∃ m', t = { u with rip := load u.mem (u.reg .rsp - 128), uif := true, mem := m' } ∧
      ∀ x, L.Kept (u.reg .rsp - 128) x → m' x = u.mem x := by
  obtain ⟨u0, hu0, hr1⟩ := h.head (I := fun u' => u' = u) rfl fun u' _ _ hu huu => by
    rw [hu, huif] at huu
    cases huu
  rw [hu0] at hr1
  have hin : L.InSwap (addrAfter L.len (addrAfter L.len L.swapAddr (swapOut ++ swapInMasked))
      [.stui]) := by
    rw [addrAfter_append]
    have hcode : swapContext = swapOut ++ swapInMasked ++ [.stui] ++ [.jmp (-0x80) .rsp] := rfl
    exact inSwap_addrAfter hcode nofun
  obtain ⟨u', ⟨ip, m', rfl, hm'⟩, hr2⟩ := hr1.head
    (I := fun u' => ∃ ip m', u' = { u with rip := ip, uif := true, mem := m' } ∧
      ∀ x, L.Kept (u.reg .rsp - 128) x → m' x = u.mem x) ⟨u.rip, u.mem, rfl, fun _ _ => rfl⟩ (by
    rintro _ ν' v ⟨ip, m', rfl, hm'⟩ _
    obtain ⟨m'', hquick, hkept⟩ := interrupt_quick (ν := ν') (v := v)
      (s := { u with rip := _, uif := true, mem := m' }) hfits hin
    exact ⟨_, m'', hquick, fun x hx => (hkept x hx).trans (hm' x hx)⟩)
  cases hr2
  refine ⟨m', ?_, hm'⟩
  have haddr : u.reg .rsp + (-0x80) = u.reg .rsp - 128 := by bv_omega
  have hload : load m' (u.reg .rsp - 128) = load u.mem (u.reg .rsp - 128) := by
    refine load_congr fun x hx => hm' x ?_
    have hred := hfits.has_redZone hx
    exact .inr ⟨.main, hred.1, fun _ => hred.2⟩
  rw [exec]
  simp only [haddr, hload]

/-- `swap_context` up to the switch of the stack: the preemptive context is
parked, and the main one can be resumed. -/
theorem swapOut_parks {w : Cpu} (h : Preempting L s0 w) (hrdi : w.reg .rdi = L.ctx .preemptive)
    (hrsi : w.reg .rsi = L.ctx .main)
    (hret : (L.stack .preemptive).pos (w.reg .rsp) + 8 ≤ (L.stack .preemptive).size) :
    ∃ v, execs L.env ν swapOutMasked w = v ∧ v.reg .rsi = L.ctx .main ∧ v.fs = s0.fs ∧
      v.gs = s0.gs ∧ v.uif = w.uif ∧ v.world.currCtx = L.ctx .main ∧ Suspended L s0 v.mem ∧
      Parked L v.mem w.callFrame (w.reg .rsp + 8) := by
  have hsize := L.size_le .preemptive
  have hpos : (L.stack .preemptive).pos (w.reg .rsp + 8) =
      (L.stack .preemptive).pos (w.reg .rsp) + 8 := by
    simp only [Stack.pos] at hret ⊢
    bv_omega
  have hfits := h.fits.1
  have hlo : 384 < (L.stack .preemptive).pos (w.reg .rsp + 8) := by omega
  have hhi : (L.stack .preemptive).pos (w.reg .rsp + 8) ≤ (L.stack .preemptive).size := by omega
  obtain ⟨ρ, rflags, hv, hsi⟩ := swapOut_view (ν := ν) hlo hhi rfl hrdi hrsi
  have hne : Ctx.preemptive ≠ .main := by decide
  have hmain : ∀ x, L.Field .main x → ¬ Span (Layout.reg0 (L.ctx .preemptive)) 8 x :=
    fun x hx hspan => absurd (Layout.Field.unique hx (.inl hspan)) (by decide)
  refine ⟨_, rfl, (hv.reg .rsi (by decide)).trans hsi, hv.fs.trans h.suspended.fs,
    hv.gs.trans h.suspended.gs, hv.uif, ?_, h.suspended.congr h.fits_main ?_ ?_, ?_⟩
  · rw [hv.world]
  · exact fun x hx => (hv.kept x (.inl ⟨_, hx⟩)).trans (store_of_not_span (hmain x hx))
  · exact fun x hx => (hv.kept x (Layout.kept_other hne (by omega) hhi hx)).trans
      (store_of_not_span fun hspan => Layout.Field.not_stack (.inl hspan) hx)
  · have hfits' : L.Fits .preemptive (w.reg .rsp + 8) := ⟨by omega, hhi⟩
    refine ⟨?_, ?_, hlo, hhi, hfits'⟩
    · rw [load_field (d := .preemptive) hv fun x hx => .inl hx, load_store]
    · have hholds := hv.holds
      have hsp : State.reg (execs L.env ν swapOutMasked w) .rsp = w.reg .rsp + 8 - 144 := hv.rsp
      rw [hsp] at hholds
      exact hholds

/-- The main context goes on as it was interrupted, but for the eight bytes at
RSP - 128, which hold RIP; the preemptive one is parked again. -/
theorem swap_resumes (h : Preempting L s0 s) (hswap : SwapCall L .preemptive .main s t) :
    (∃ m' w, t = ⟨s0.reg, s0.rip, s0.rflags, s0.fs, s0.gs, true, m', w⟩ ∧
      w.currCtx = L.ctx .main ∧
      (∀ x, (L.stack .main).Has x →
        (L.stack .main).pos (s0.reg .rsp - 128) ≤ (L.stack .main).pos x →
        m' x = WordMem.store s0.mem (s0.reg .rsp - 128) s0.rip x) ∧
      load m' (Layout.fsField (L.ctx .main)) = s0.fs ∧
      load m' (Layout.gsField (L.ctx .main)) = s0.gs) ∧
    ∃ F base, Parked L t.mem F base := by
  obtain ⟨ν, w, hw, hreg, hruns, huif⟩ := hswap.masked h
  have hfm := h.fits_main
  obtain ⟨v, hv, hsi, hfs, hgs, hvuif, hcur, hsus, hpark⟩ := swapOut_parks (ν := ν) hw
    (hreg ▸ hswap.rdi) (hreg ▸ hswap.rsi) (hreg ▸ hswap.ret)
  obtain ⟨ip, m1, hin, hm1⟩ := swapIn_state (ν := ν) hsi hsus hfm
  rw [hv, hin] at hruns
  obtain ⟨u, hu⟩ : ∃ u : Cpu,
      u = ⟨s0.reg, ip, s0.rflags, v.fs, v.gs, v.uif, m1, v.world⟩ := ⟨_, rfl⟩
  rw [← hu] at hruns
  have hum : u.mem = m1 := by rw [hu]
  have hur : u.reg = s0.reg := by rw [hu]
  obtain ⟨m', rfl, hm'⟩ := resume_jmp (hur ▸ hfm)
    ((congrArg State.uif hu).trans (hvuif.trans huif)) hruns
  rw [hum, hur] at hm'
  -- what is kept until the main context goes on
  have hkept : ∀ x, L.Kept (s0.reg .rsp - 128) x →
      m' x = WordMem.store v.mem (s0.reg .rsp - 128) s0.rip x :=
    fun x hx => (hm' x hx).trans (hm1 x hx)
  have hip : load m1 (s0.reg .rsp - 128) = s0.rip := by
    rw [← load_store v.mem (s0.reg .rsp - 128) s0.rip]
    refine load_congr fun x hx => hm1 x ?_
    exact .inr ⟨.main, (hfm.has_redZone hx).1, fun _ => (hfm.has_redZone hx).2⟩
  have hout : ∀ x, ¬ (L.stack .main).Has x → ¬ Span (s0.reg .rsp - 128) 8 x :=
    fun x hx hspan => hx (hfm.has_redZone hspan).1
  have hfield : ∀ d x, L.Field d x → m' x = v.mem x := fun d x hx =>
    (hkept x (.inl ⟨d, hx⟩)).trans (store_of_not_span (hout x hx.not_stack))
  refine ⟨⟨m', v.world, ?_, hcur, ?_, ?_, ?_⟩, _, _, hpark.congr ?_ ?_⟩
  · rw [hu, hfs, hgs]
    exact congrArg (fun ip => State.mk s0.reg ip s0.rflags s0.fs s0.gs true m' v.world) hip
  · intro x hx hge
    rw [hkept x (.inr ⟨.main, hx, fun _ => hge⟩), WordMem.store, WordMem.store, hsus.bytes x hx hge]
  · rw [← hsus.fs]
    exact load_congr fun x hx => hfield .main x (.inr (.inl hx))
  · rw [← hsus.gs]
    exact load_congr fun x hx => hfield .main x (.inr (.inr hx))
  · exact fun x hx => hfield .preemptive x (.inl hx)
  · intro x hx
    have hne : Ctx.main ≠ .preemptive := by decide
    have hlo := hfm.lo
    exact (hkept x (Layout.kept_other hne (by omega) hfm.hi hx)).trans
      (store_of_not_span (hout x (Layout.apart hne.symm hx)))

end Swap

end PreemptDB
