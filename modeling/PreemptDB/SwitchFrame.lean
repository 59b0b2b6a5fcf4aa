/-
The frames of the handler and of `swap_context`.

Both save a context as the same eighteen words, `Frame.words`, but in different
places: the handler below the red zone of the interrupted code, `swap_context`
right below the return address.

* `Layout.room` — the free part of a stack, as a place for frames;
* `interrupt_quick` — in the range of `swap_context` an interrupt is undone;
* `interrupt_normal` — elsewhere the state is saved, and the frame that
  `handler_helper` chose is restored.
-/
import PreemptDB.ContextSwitch

namespace PreemptDB

open Function WordMem X86

variable {L : Layout} {c c' : Ctx} {s t : Cpu} {ν : Helper → Clobber}

theorem Layout.apart (h : c ≠ c') {x : Word} (hx : (L.stack c).Has x) : ¬ (L.stack c').Has x := by
  intro hx'
  cases c <;> cases c'
  · exact h rfl
  · exact L.stacks_apart x hx hx'
  · exact L.stacks_apart x hx' hx
  · exact h rfl

theorem Layout.Field.span {x : Word} (hx : L.Field c x) : Span (L.ctx c) 0x2080 x := by
  simp only [Layout.Field, Layout.reg0, Layout.fsField, Layout.gsField, Span] at hx ⊢
  bv_omega

theorem Layout.Field.not_stack {x : Word} (hx : L.Field c x) : ¬ (L.stack c').Has x :=
  L.ctx_stack_apart c c' x hx.span

theorem Layout.Field.unique {x : Word} (hx : L.Field c x) (hx' : L.Field c' x) : c = c' := by
  cases c <;> cases c'
  · rfl
  · exact absurd hx'.span (L.ctx_apart x hx.span)
  · exact absurd hx.span (L.ctx_apart x hx'.span)
  · rfl

/-- A field other than `reg[0]` of `c`. -/
theorem Layout.reg0_apart {p : Word} (h : p = fsField (L.ctx c') ∨ p = gsField (L.ctx c'))
    {x : Word}
    (hx : Span p 8 x) : ¬ Span (reg0 (L.ctx c)) 8 x := by
  intro hreg
  have hfield : L.Field c' x := by
    rcases h with rfl | rfl
    · exact .inr (.inl hx)
    · exact .inr (.inr hx)
  obtain rfl : c = c' := Layout.Field.unique (.inl hreg) hfield
  rcases h with rfl | rfl
  all_goals
    simp only [Layout.reg0, Layout.fsField, Layout.gsField, Span] at hx hreg
    bv_omega

theorem Stack.pos_sub {k : Stack} {sp : Word} {n : ℕ} (h : n ≤ k.pos sp) :
    k.pos (sp - BitVec.ofNat 64 n) = k.pos sp - n := by
  simp only [Stack.pos] at h ⊢
  bv_omega

/-- The bytes right below `sp`. -/
theorem Stack.pos_of_span {k : Stack} {sp x : Word} {n : ℕ} (h : n ≤ k.pos sp)
    (hx : Span (sp - BitVec.ofNat 64 n) n x) : k.pos sp - n ≤ k.pos x ∧ k.pos x < k.pos sp := by
  simp only [Stack.pos, Span] at h hx ⊢
  bv_omega

/-- A stack pointer belongs to the stack of the byte below it. -/
theorem Stack.has_pred {k : Stack} {sp : Word} (hlo : 0 < k.pos sp) (hhi : k.pos sp ≤ k.size) :
    k.Has (sp - 1) := by
  have hpos : k.pos (sp - 1) = k.pos sp - 1 := Stack.pos_sub (n := 1) hlo
  rw [Stack.Has, Span, ← Stack.pos, hpos]
  omega

/-- The bytes of the other stack are kept. -/
theorem Layout.kept_other {d : Ctx} {sp x : Word} (hcd : c ≠ d) (hlo : 0 < (L.stack c).pos sp)
    (hhi : (L.stack c).pos sp ≤ (L.stack c).size) (hx : (L.stack d).Has x) : L.Kept sp x :=
  .inr ⟨d, hx, fun hsp => absurd hsp (Layout.apart hcd (Stack.has_pred hlo hhi))⟩

/-- The words below `sp` on the stack of `c`. -/
def Layout.room (L : Layout) (c : Ctx) (sp : Word) (hlo : 384 < (L.stack c).pos sp)
    (hhi : (L.stack c).pos sp ≤ (L.stack c).size) : Room where
  base := sp
  size := 48
  kept := L.Kept sp
  small := by norm_num
  free x hx := by
    obtain ⟨_, hlt⟩ := Stack.pos_of_span (k := L.stack c) (by omega) hx
    have hin : (L.stack c).Has x := Nat.lt_of_lt_of_le hlt hhi
    rintro (⟨d, hd⟩ | ⟨d, hd, hle⟩)
    · exact hd.not_stack hin
    · by_cases hcd : c = d
      · subst hcd
        exact absurd (hle (Stack.has_pred (by omega) hhi)) (by omega)
      · exact Layout.apart hcd hin hd

theorem Layout.room_respected (L : Layout) (c : Ctx) (sp : Word) (hlo : 384 < (L.stack c).pos sp)
    (hhi : (L.stack c).pos sp ≤ (L.stack c).size) : (L.room c sp hlo hhi).Respected L.env := by
  intro n hn x hx
  have hn' : 8 * n ≤ 384 := Nat.mul_le_mul_left 8 hn
  have hpos : (L.stack c).pos (sp - BitVec.ofNat 64 (8 * n)) = (L.stack c).pos sp - 8 * n :=
    Stack.pos_sub (by omega)
  have hown : (L.stack c).Has (sp - BitVec.ofNat 64 (8 * n) - 1) :=
    Stack.has_pred (by omega) (by omega)
  refine decide_eq_true ?_
  rcases hx with (hfield | ⟨d, hd, hle⟩) | hspan
  · exact .inl hfield
  · refine .inr ⟨d, hd, fun hbelow => ?_⟩
    by_cases hcd : c = d
    · subst hcd
      have hge := hle (Stack.has_pred (by omega) hhi)
      change (L.stack c).pos (sp - BitVec.ofNat 64 (8 * n)) ≤ _
      omega
    · exact absurd hbelow (Layout.apart hcd hown)
  · replace hspan : Span (sp - BitVec.ofNat 64 (8 * n)) (8 * n) x := hspan
    obtain ⟨hge, hlt⟩ := Stack.pos_of_span (k := L.stack c) (by omega) hspan
    refine .inr ⟨c, Nat.lt_of_lt_of_le hlt hhi, fun _ => ?_⟩
    change (L.stack c).pos (sp - BitVec.ofNat 64 (8 * n)) ≤ _
    omega

/-- The functions that only take the time. -/
def Helper.silent : Helper → Bool
  | .handlerHelper | .swapHelper => false
  | _ => true

theorem Layout.env_silent (L : Layout) (f : Helper) (hf : f.silent = true) (w : Word) (s : Cpu) :
    L.env.call f w s = s := by
  cases f <;> first | rfl | cases hf

section Views

variable {base : Word} {hlo : 384 < (L.stack c).pos base}
  {hhi : (L.stack c).pos base ≤ (L.stack c).size} {m : Mem} {a : Shadow SwitchVars}
  {v ip f sp : Word}

/-- The registers that are saved around the calls of the timing functions. -/
def scratch : List Reg := [.r11, .r10, .r9, .r8, .rcx, .rdx, .rsi, .rdi]

/-- At the first comparison, RAX and RBX are on the stack above the interrupt
frame, RAX has the interrupted RIP, and the other registers are unchanged. -/
theorem handlerEntry_view (h : View (L.room c base hlo hhi) m a s)
    (hstack : a.stack = [some v, some ip, some f, some sp]) :
    ∃ rflags ρ, View (L.room c base hlo hhi) m
        { a with
          reg := ρ
          rflags := rflags
          stack := [some (a.reg .rbx), some (a.reg .rax), some ip, some f, some sp] }
        (execs L.env ν handlerEntry s) ∧
      (∀ r, r ≠ .rax → r ≠ .rbx → r ≠ .rsp → ρ r = a.reg r) ∧ ρ .rax = ip ∧
      greater rflags = L.endSwapAddr.slt ip := by
  obtain ⟨reg, rflags, fs, gs, uif, world, stack⟩ := a
  cases hstack
  have hR := L.room_respected c base hlo hhi
  obtain ⟨_, h1⟩ : ∃ rflags, View (L.room c base hlo hhi) m
      ⟨reg, rflags, fs, gs, uif, world,
        [some (reg .rbx), some (reg .rax), some ip, some f, some sp]⟩
      (execs L.env ν [.endbr64, .add 8 .rsp, .push .rax, .push .rbx] s) :=
    ⟨_, h.execs hR L.env_silent rfl⟩
  have hscratch : Reg.rsp ∉ scratch := by decide
  obtain ⟨rflags', h2⟩ := h1.savedCall (ν := ν) hR (L.env_silent .recordInterruptStart rfl)
    hscratch (show 5 + 8 < 48 by norm_num)
  have h3 : View (L.room c base hlo hhi) m
      ⟨Function.update (Function.update _ .rax ip) .rbx L.endSwapAddr,
        subFlags rflags' ip L.endSwapAddr,
        fs, gs, uif, world, [some (reg .rbx), some (reg .rax), some ip, some f, some sp]⟩
      (execs L.env ν [.load 0x10 .rsp .rax, .lea .endSwapContext .rbx, .cmp .rbx .rax] _) :=
    h2.execs hR L.env_silent rfl
  refine ⟨_, _, h3, ?_, ?_, greater_subFlags _ _ _⟩
  · intro r hax hbx hsp
    rw [update_of_ne hbx, update_of_ne hax]
    cases r <;> first | rfl | contradiction
  · rw [update_of_ne (by decide), update_self]

/-- The range test of the handler: RIP lies inside `swap_context`. -/
def Layout.InSwap (L : Layout) (ip : Word) : Prop :=
  L.endSwapAddr.slt ip = false ∧ L.swapAddr.slt ip = true

instance (L : Layout) (ip : Word) : Decidable (L.InSwap ip) :=
  inferInstanceAs (Decidable (_ ∧ _))

/-- What a context switch saves. -/
structure Frame where
  reg : Reg → Word
  rip : Word
  rflags : Word
  rsp : Word

/-- The registers of a frame, the lowest word first. -/
def frameRegs : List Reg :=
  [.r15, .r14, .r13, .r12, .r11, .r10, .r9, .r8, .rdi, .rsi, .rbp, .rdx, .rcx, .rbx, .rax]

/-- The eighteen words of a frame, the lowest one first. -/
def Frame.words (fr : Frame) : List (Option Word) :=
  (frameRegs.map fun r => some (fr.reg r)) ++ [some fr.rip, some fr.rflags, some fr.rsp]

/-- The state that a frame stands for. -/
def Frame.state (fr : Frame) (fs gs : Word) (m : Mem) (w : SwitchVars) : Cpu :=
  ⟨Function.update fr.reg .rsp fr.rsp, fr.rip, fr.rflags, fs, gs, true, m, w⟩

def Cpu.frame (s : Cpu) : Frame := ⟨s.reg, s.rip, s.rflags, s.reg .rsp⟩

/-- `uiret` after a block that ends with the interrupt frame on the stack. -/
theorem uiret_state (h : View (L.room c base hlo hhi) m a s) {F : Frame}
    (hstack : a.stack = [some F.rip, some F.rflags, some F.rsp])
    (hreg : ∀ r, r ≠ .rsp → a.reg r = F.reg r) :
    ∃ m', execs L.env ν [.uiret] s = F.state a.fs a.gs m' a.world ∧
      ∀ x, L.Kept base x → m' x = m x := by
  refine ⟨s.mem, ?_, h.kept⟩
  have hupd : Function.update a.reg .rsp F.rsp = Function.update F.reg .rsp F.rsp := by
    funext r
    by_cases hr : r = .rsp
    · subst hr
      rw [update_self, update_self]
    · rw [update_of_ne hr, update_of_ne hr, hreg r hr]
  rw [execs, execs, h.uiret hstack, hupd]
  rfl

/-- The quick exit goes back to where the interrupt came. -/
theorem quickExit_state {F : Frame} (h : View (L.room c base hlo hhi) m a s)
    (hstack : a.stack = [some (F.reg .rbx), some (F.reg .rax), some F.rip, some F.rflags,
      some F.rsp])
    (hreg : ∀ r, r ≠ .rax → r ≠ .rbx → r ≠ .rsp → a.reg r = F.reg r) :
    ∃ m', execs L.env ν uintrQuickExit s = F.state a.fs a.gs m' a.world ∧
      ∀ x, L.Kept base x → m' x = m x := by
  obtain ⟨reg, rflags, fs, gs, uif, world, stack⟩ := a
  cases hstack
  have hR := L.room_respected c base hlo hhi
  have hscratch : Reg.rsp ∉ scratch := by decide
  obtain ⟨rflags', h1⟩ := h.savedCall (ν := ν) hR (L.env_silent .recordInterruptEndQuick rfl)
    hscratch (show 5 + 8 < 48 by norm_num)
  have h2 : View (L.room c base hlo hhi) m
      ⟨Function.update (Function.update _ .rbx (F.reg .rbx)) .rax (F.reg .rax), rflags',
        fs, gs, uif, world, [some F.rip, some F.rflags, some F.rsp]⟩
      (execs L.env ν [.pop .rbx, .pop .rax] _) :=
    h1.execs hR L.env_silent rfl
  have hcode : uintrQuickExit = scratch.map .push ++ View.alignedCall .recordInterruptEndQuick ++
      scratch.reverse.map .pop ++ [.pop .rbx, .pop .rax] ++ [.uiret] := rfl
  rw [hcode, execs_append, execs_append]
  refine uiret_state h2 rfl fun r hsp => ?_
  cases r <;> first | contradiction | exact hreg _ nofun nofun nofun | rfl

/-- `.continue_uintr_handler` leaves through the frame on the stack. -/
theorem restoreContext_state {F : Frame} (h : View (L.room c base hlo hhi) m a s)
    (hstack : a.stack = F.words) :
    ∃ m', execs L.env ν (restoreContext ++ [.uiret]) s = F.state a.fs a.gs m' a.world ∧
      ∀ x, L.Kept base x → m' x = m x := by
  have hR := L.room_respected c base hlo hhi
  have hframe : Reg.rsp ∉ frameRegs := by decide
  have hscratch : Reg.rsp ∉ [Reg.r11, .r10, .r9, .r8, .rax, .rcx, .rdx, .rsi, .rdi] := by decide
  have h1 := h.pops (E := L.env) (ν := ν) hframe hstack
  obtain ⟨rflags, h2⟩ := h1.savedCall (ν := ν) hR (L.env_silent .recordInterruptEndNormal rfl)
    hscratch (show 3 + 9 < 48 by norm_num)
  rw [execs_append]
  refine uiret_state h2 rfl fun r hsp => ?_
  cases r <;> first | rfl | contradiction

/-- Before the call of `handler_helper` the frame is complete, and RDI points to it. -/
theorem saveContext_view {F : Frame} (h : View (L.room c base hlo hhi) m a s)
    (hstack : a.stack = [some (F.reg .rbx), some (F.reg .rax), some F.rip, some F.rflags,
      some F.rsp])
    (hreg : ∀ r, r ≠ .rax → r ≠ .rbx → r ≠ .rsp → a.reg r = F.reg r) :
    ∃ rflags ρ, View (L.room c base hlo hhi) m
        { a with reg := ρ, rflags := rflags, stack := F.words } (execs L.env ν saveContext s) ∧
      ρ .rdi = base - 144 := by
  have hR := L.room_respected c base hlo hhi
  have hrest : Reg.rsp ∉ [Reg.rcx, .rdx, .rbp, .rsi, .rdi, .r8, .r9, .r10, .r11, .r12, .r13, .r14,
    .r15] := by decide
  have h1 := h.pushes (E := L.env) (ν := ν) hrest (by rw [hstack]; exact (by decide : 5 + 13 ≤ 48))
  have hwords : (([Reg.rcx, .rdx, .rbp, .rsi, .rdi, .r8, .r9, .r10, .r11, .r12, .r13, .r14,
      .r15].reverse).map fun r => some (a.reg r)) ++ a.stack = F.words := by
    rw [hstack, List.map_congr_left (g := fun r => some (F.reg r)) ?_]
    · rfl
    · intro r hr
      rw [hreg r] <;> (rintro rfl; simp at hr)
  rw [hwords] at h1
  obtain ⟨reg, rflags, fs, gs, uif, world, stack⟩ := a
  have h2 : View (L.room c base hlo hhi) m
      ⟨Function.update reg .rdi (base - 144), setFlag rflags 10 false, fs, gs, uif, world, F.words⟩
      (execs L.env ν [.mov .rsp .rdi, .cld] _) := h1.execs hR L.env_silent rfl
  exact ⟨_, _, h2, update_self _ _ _⟩

/-- With the counter raised, `handler_helper` returns the frame of the interrupted
context. -/
theorem handlerHelper_locked {F : Frame} (h : View (L.room c base hlo hhi) m a s)
    (hstack : a.stack = F.words) (hrdi : a.reg .rdi = base - 144)
    (hlock : 0 < a.world.lockCounter a.fs) :
    ∃ ρ, View (L.room c base hlo hhi) m { a with reg := ρ, rflags := (ν .handlerHelper).rflags }
      (execs L.env ν [.call .handlerHelper, .mov .rax .rsp] s) := by
  have h1 := h.clobber (L.room_respected c base hlo hhi) (ν .handlerHelper)
  have hsp : s.reg .rdi = (s.clobber L.env (ν .handlerHelper)).reg .rsp := by
    rw [h.reg .rdi (by decide), hrdi, h1.rsp, Shadow.sp, hstack]
    rfl
  have hcall : exec L.env ν (.call .handlerHelper) s =
      (s.clobber L.env (ν .handlerHelper)).set .rax (s.reg .rdi) := by
    rw [exec]
    exact if_pos (by rw [h1.world, h1.fs]; exact hlock)
  have h2 := h1.set (r := .rax) (by decide) (s.reg .rdi)
  rw [← hcall] at h2
  have hmov : exec L.env ν (.mov .rax .rsp) (exec L.env ν (.call .handlerHelper) s) =
      exec L.env ν (.call .handlerHelper) s := by
    rw [exec, hcall, State.reg_set_self, hsp]
    exact State.set_self _ .rsp
  rw [execs, execs, execs, hmov]
  exact ⟨_, h2⟩

/-- What the saved fields hold, they hold in every view. -/
theorem load_field (h : View (L.room c base hlo hhi) m a s) {p : Word} {d : Ctx}
    (hp : ∀ x, Span p 8 x → L.Field d x) : load s.mem p = load m p :=
  load_congr fun x hx => h.kept x (.inl ⟨d, hp x hx⟩)

theorem enter_view (h : View (L.room c base hlo hhi) m a s) (d : Ctx) :
    View (L.room c base hlo hhi) m
      { a with
        fs := load m (Layout.fsField (L.ctx d))
        gs := load m (Layout.gsField (L.ctx d))
        world := { a.world with currCtx := L.ctx d } }
      (Cpu.enter s (L.ctx d)) := by
  refine ⟨h.fits, h.rsp, h.holds, h.kept, h.reg, h.rflags, ?_, ?_, h.uif, ?_⟩
  · exact load_field (d := d) h fun x hx => .inr (.inl hx)
  · exact load_field (d := d) h fun x hx => .inr (.inr hx)
  · rw [Cpu.enter, h.world]

/-- `reg[0]` is not on the stack. -/
theorem reg0_not_span (h : View (L.room c base hlo hhi) m a s) {d : Ctx} {y : Word}
    (hy : Span (Layout.reg0 (L.ctx d)) 8 y) : ¬ Span (s.reg .rsp) (8 * a.stack.length) y := by
  intro hstack
  rw [h.rsp] at hstack
  change Span (base - BitVec.ofNat 64 (8 * a.stack.length)) _ y at hstack
  have hfits : 8 * a.stack.length ≤ 8 * 48 := Nat.mul_le_mul_left 8 h.fits
  have hpos := Stack.pos_of_span (k := L.stack c) (by omega) hstack
  have hno : ¬ (L.stack c).Has y := Layout.Field.not_stack (.inl hy)
  exact hno (Nat.lt_of_lt_of_le hpos.2 hhi)

/-- With the counter at zero, `handler_helper` stores RDI in the current context
and goes over to the preemptive one. -/
theorem handlerHelper_unlocked (h : View (L.room c base hlo hhi) m a s)
    (hcur : getCurrentContext L a.world = L.ctx c) (hlock : a.world.lockCounter a.fs = 0) :
    ∃ ρ, View (L.room c base hlo hhi) (WordMem.store m (Layout.reg0 (L.ctx c)) (a.reg .rdi))
        { a with
          reg := ρ
          rflags := (ν .handlerHelper).rflags
          fs := load m (Layout.fsField (L.ctx .preemptive))
          gs := load m (Layout.gsField (L.ctx .preemptive))
          world := { a.world with currCtx := L.ctx .preemptive } }
        (exec L.env ν (.call .handlerHelper) s) ∧
      ρ .rax = load (WordMem.store m (Layout.reg0 (L.ctx c)) (a.reg .rdi))
        (Layout.reg0 (L.ctx .preemptive)) := by
  obtain ⟨s1, hs1⟩ : ∃ s1, s1 = s.clobber L.env (ν .handlerHelper) := ⟨_, rfl⟩
  have h1 := h.clobber (L.room_respected c base hlo hhi) (ν .handlerHelper)
  rw [← hs1] at h1
  have h2 := h1.store (a.reg .rdi) fun y hy => reg0_not_span (d := c) h1 hy
  obtain ⟨m1, hm1⟩ : ∃ m1, m1 = WordMem.store s1.mem (Layout.reg0 (L.ctx c)) (a.reg .rdi) :=
    ⟨_, rfl⟩
  have hcall : exec L.env ν (.call .handlerHelper) s =
      (Cpu.enter { s1 with mem := m1 } (L.ctx .preemptive)).set .rax
        (load m1 (Layout.reg0 (L.ctx .preemptive))) := by
    rw [hm1, ← hcur, ← h1.world, ← h.reg .rdi nofun, hs1]
    exact if_neg (by rw [← hs1, h1.world, h1.fs]; exact Nat.not_lt.mpr (Nat.le_of_eq hlock))
  have hrax := load_field (d := .preemptive) h2 fun x hx => .inl hx
  have h3 := enter_view h2 .preemptive
  rw [load_store_of_disjoint fun x hx => Layout.reg0_apart (.inl rfl) hx,
    load_store_of_disjoint fun x hx => Layout.reg0_apart (.inr rfl) hx, ← hm1] at h3
  rw [← hm1] at hrax
  rw [hcall]
  exact ⟨_, h3.set (r := .rax) nofun _, (update_self _ _ _).trans hrax⟩

end Views

section Interrupts

variable {v : Word}

theorem Layout.Fits.lo {sp : Word} (h : L.Fits c sp) : 384 < (L.stack c).pos (sp - 128) := by
  have hpos : (L.stack c).pos (sp - 128) = (L.stack c).pos sp - 128 :=
    Stack.pos_sub (n := 128) (by have := h.1; omega)
  have := h.1
  omega

theorem Layout.Fits.hi {sp : Word} (h : L.Fits c sp) :
    (L.stack c).pos (sp - 128) ≤ (L.stack c).size := by
  have hpos : (L.stack c).pos (sp - 128) = (L.stack c).pos sp - 128 :=
    Stack.pos_sub (n := 128) (by have := h.1; omega)
  have := h.2
  omega

/-- The frame that the handler saves is on the stack. -/
theorem Layout.Fits.has_frame {sp x : Word} (h : L.Fits c sp) (hx : Span (sp - 272) 144 x) :
    (L.stack c).Has x := by
  have hadd : sp - 128 - 144 = sp - 272 := by bv_omega
  rw [← hadd] at hx
  have hpos := Stack.pos_of_span (k := L.stack c) (n := 144) (by have := h.lo; omega) hx
  exact Nat.lt_of_lt_of_le hpos.2 h.hi

/-- The free stack below the red zone of the interrupted code. -/
def Layout.Fits.room {sp : Word} (h : L.Fits c sp) : Room := L.room c (sp - 128) h.lo h.hi

/-- The handler up to the point where it has decided which way to go. -/
theorem interrupt_decided (hfits : L.Fits c (s.reg .rsp)) :
    ∃ s1 rflags ρ, View hfits.room s.mem
        ⟨ρ, rflags, s.fs, s.gs, false, s.world,
          [some (s.reg .rbx), some (s.reg .rax), some s.rip, some s.rflags, some (s.reg .rsp)]⟩ s1 ∧
      (∀ r, r ≠ .rax → r ≠ .rbx → r ≠ .rsp → ρ r = s.reg r) ∧
      interrupt L ν v s = execs L.env ν
        (if L.InSwap s.rip then uintrQuickExit else continueUintrHandler) s1 := by
  have hR := L.room_respected c _ hfits.lo hfits.hi
  have h0 : View hfits.room s.mem _ (deliver L.handlerAddr v s) :=
    View.deliver rfl (show 4 ≤ 48 by norm_num) _ _
  obtain ⟨rflags, ρ, h1, hρ, hrax, hend⟩ := handlerEntry_view (ν := ν) h0 rfl
  have hfirst := h1.rflags
  change X86.State.rflags _ = rflags at hfirst
  by_cases hafter : L.endSwapAddr.slt s.rip = true
  · refine ⟨_, _, _, h1, hρ, ?_⟩
    rw [if_neg fun hin => by rw [hin.1] at hafter; cases hafter]
    rw [interrupt, interruptHandlerFunc, Code.run, hfirst, hend, if_pos hafter, Code.run]
  · have h2 : View hfits.room s.mem
        ⟨Function.update ρ .rbx L.swapAddr, subFlags rflags (ρ .rax) L.swapAddr, s.fs, s.gs, false,
          s.world,
          [some (s.reg .rbx), some (s.reg .rax), some s.rip, some s.rflags, some (s.reg .rsp)]⟩
        (execs L.env ν [.lea .swapContext .rbx, .cmp .rbx .rax] _) :=
      h1.execs hR L.env_silent rfl
    have hsecond := h2.rflags
    rw [hrax] at hsecond
    refine ⟨_, _, _, h2, ?_, ?_⟩
    · intro r hax hbx hsp
      exact (update_of_ne hbx _ _).trans (hρ r hax hbx hsp)
    · have hiff : L.InSwap s.rip ↔ L.swapAddr.slt s.rip = true :=
        and_iff_right (Bool.eq_false_of_not_eq_true hafter)
      rw [interrupt, interruptHandlerFunc, Code.run, hfirst, hend, if_neg hafter, Code.run, hsecond,
        greater_subFlags]
      simp only [hiff]
      split <;> rfl

theorem Cpu.frame_state (s : Cpu) (m : Mem) (w : SwitchVars) :
    s.frame.state s.fs s.gs m w = { s with uif := true, mem := m, world := w } := by
  rw [Frame.state, Cpu.frame, update_eq_self]

/-- In the range of `swap_context` an interrupt is undone. -/
theorem interrupt_quick (hfits : L.Fits c (s.reg .rsp)) (hin : L.InSwap s.rip) :
    ∃ m', interrupt L ν v s = { s with uif := true, mem := m' } ∧
      ∀ x, L.Kept (s.reg .rsp - 128) x → m' x = s.mem x := by
  obtain ⟨s1, rflags, ρ, h1, hρ, hrun⟩ := interrupt_decided (ν := ν) (v := v) hfits
  obtain ⟨m', hexit, hkept⟩ := quickExit_state (ν := ν) (F := s.frame) h1 rfl hρ
  refine ⟨m', ?_, hkept⟩
  rw [hrun, if_pos hin, hexit, ← Cpu.frame_state]

/-- Outside, the frame of the interrupted code is complete when `handler_helper`
is called. -/
theorem interrupt_saved (hfits : L.Fits c (s.reg .rsp)) (hout : ¬ L.InSwap s.rip) :
    ∃ s2 rflags ρ, View hfits.room s.mem
        ⟨ρ, rflags, s.fs, s.gs, false, s.world, s.frame.words⟩ s2 ∧
      ρ .rdi = s.reg .rsp - 272 ∧
      interrupt L ν v s = execs L.env ν (restoreContext ++ [.uiret])
        (execs L.env ν [.call .handlerHelper, .mov .rax .rsp] s2) := by
  obtain ⟨s1, rflags, ρ, h1, hρ, hrun⟩ := interrupt_decided (ν := ν) (v := v) hfits
  obtain ⟨rflags', ρ', h2, hrdi⟩ := saveContext_view (ν := ν) (F := s.frame) h1 rfl hρ
  refine ⟨_, _, _, h2, ?_, ?_⟩
  · rw [hrdi]
    bv_omega
  · rw [hrun, if_neg hout, continueUintrHandler, List.append_assoc, List.append_assoc,
      execs_append, execs_append]

/-- With the counter raised, an interrupt is undone. -/
theorem interrupt_locked (hfits : L.Fits c (s.reg .rsp)) (hout : ¬ L.InSwap s.rip)
    (hlock : 0 < s.world.lockCounter s.fs) :
    ∃ m', interrupt L ν v s = { s with uif := true, mem := m' } ∧
      ∀ x, L.Kept (s.reg .rsp - 128) x → m' x = s.mem x := by
  obtain ⟨s2, rflags, ρ, h2, hrdi, hrun⟩ := interrupt_saved (ν := ν) (v := v) hfits hout
  have hrdi' : ρ .rdi = s.reg .rsp - 128 - 144 := by
    rw [hrdi]
    bv_omega
  obtain ⟨ρ', h3⟩ := handlerHelper_locked (ν := ν) h2 rfl hrdi' hlock
  obtain ⟨m', hexit, hkept⟩ := restoreContext_state (ν := ν) (F := s.frame) h3 rfl
  refine ⟨m', ?_, hkept⟩
  rw [hrun, hexit, ← Cpu.frame_state]

/-- In the preemptive context an interrupt is undone, but for `reg[0]`, which is
not used while the context runs. -/
theorem interrupt_self (hfits : L.Fits .preemptive (s.reg .rsp)) (hout : ¬ L.InSwap s.rip)
    (hcur : getCurrentContext L s.world = L.ctx .preemptive)
    (hfs : s.fs = load s.mem (Layout.fsField (L.ctx .preemptive)))
    (hgs : s.gs = load s.mem (Layout.gsField (L.ctx .preemptive)))
    (hlock : s.world.lockCounter s.fs = 0) :
    ∃ m', interrupt L ν v s =
        { s with uif := true, mem := m', world := { s.world with currCtx := L.ctx .preemptive } } ∧
      ∀ x, L.Kept (s.reg .rsp - 128) x → ¬ Span (Layout.reg0 (L.ctx .preemptive)) 8 x →
        m' x = s.mem x := by
  obtain ⟨s2, rflags, ρ, h2, hrdi, hrun⟩ := interrupt_saved (ν := ν) (v := v) hfits hout
  obtain ⟨ρ', h3, hrax⟩ := handlerHelper_unlocked (ν := ν) h2 hcur hlock
  -- the frame just saved is the one that is returned
  have hmov : exec L.env ν (.mov .rax .rsp) (exec L.env ν (.call .handlerHelper) s2) =
      exec L.env ν (.call .handlerHelper) s2 := by
    have hsp : State.reg (exec L.env ν (.call .handlerHelper) s2) .rax =
        State.reg (exec L.env ν (.call .handlerHelper) s2) .rsp := by
      rw [h3.reg .rax nofun, h3.rsp]
      change ρ' .rax = s.reg .rsp - 128 - 144
      rw [hrax, load_store]
      change ρ .rdi = _
      rw [hrdi]
      bv_omega
    rw [exec, hsp]
    exact State.set_self _ .rsp
  obtain ⟨m', hexit, hkept⟩ := restoreContext_state (ν := ν) (F := s.frame) h3 rfl
  refine ⟨m', ?_, fun x hx hreg => (hkept x hx).trans (store_of_not_span hreg)⟩
  rw [hrun, execs, execs, execs, hmov, hexit, ← Cpu.frame_state]
  rw [← hfs, ← hgs]

/-- The preemptive context is not running, and `m` has the frame `F` for it. -/
structure Parked (L : Layout) (m : Mem) (F : Frame) (base : Word) : Prop where
  reg0 : load m (Layout.reg0 (L.ctx .preemptive)) = base - 144
  frame : Holds m (base - 144) F.words
  lo : 384 < (L.stack .preemptive).pos base
  hi : (L.stack .preemptive).pos base ≤ (L.stack .preemptive).size
  fits : L.Fits .preemptive F.rsp

/-- The main context was interrupted in the state `s`, and `m` still has what is
needed to resume it. -/
structure Suspended (L : Layout) (s : Cpu) (m : Mem) : Prop where
  reg0 : load m (Layout.reg0 (L.ctx .main)) = s.reg .rsp - 272
  frame : Holds m (s.reg .rsp - 272) s.frame.words
  fs : load m (Layout.fsField (L.ctx .main)) = s.fs
  gs : load m (Layout.gsField (L.ctx .main)) = s.gs
  bytes : ∀ x, (L.stack .main).Has x →
    (L.stack .main).pos (s.reg .rsp - 128) ≤ (L.stack .main).pos x → m x = s.mem x

/-- The main context is switched out: the preemptive one runs from its frame. -/
theorem interrupt_switch {F : Frame} {base : Word} (hfits : L.Fits .main (s.reg .rsp))
    (hout : ¬ L.InSwap s.rip) (hcur : getCurrentContext L s.world = L.ctx .main)
    (hfs : s.fs = load s.mem (Layout.fsField (L.ctx .main)))
    (hgs : s.gs = load s.mem (Layout.gsField (L.ctx .main)))
    (hlock : s.world.lockCounter s.fs = 0) (hP : Parked L s.mem F base) :
    ∃ m', interrupt L ν v s = F.state (load s.mem (Layout.fsField (L.ctx .preemptive)))
        (load s.mem (Layout.gsField (L.ctx .preemptive))) m'
        { s.world with currCtx := L.ctx .preemptive } ∧
      Suspended L s m' ∧
      ∀ d x, L.Field d x → ¬ Span (Layout.reg0 (L.ctx .main)) 8 x → m' x = s.mem x := by
  obtain ⟨s2, rflags, ρ, h2, hrdi, hrun⟩ := interrupt_saved (ν := ν) (v := v) hfits hout
  obtain ⟨ρ', h3, hrax⟩ := handlerHelper_unlocked (ν := ν) h2 hcur hlock
  obtain ⟨s3, hs3⟩ : ∃ s3, s3 = exec L.env ν (.call .handlerHelper) s2 := ⟨_, rfl⟩
  rw [← hs3] at h3
  have hlo := hfits.lo
  have hhi := hfits.hi
  have hne : Ctx.main ≠ .preemptive := nofun
  have hreg0 : ∀ {x : Word} {d : Ctx}, (L.stack d).Has x →
      ¬ Span (Layout.reg0 (L.ctx .main)) 8 x := fun hx hspan =>
    Layout.Field.not_stack (.inl hspan) hx
  have hstackP : ∀ x, (L.stack .preemptive).Has x → s3.mem x = s.mem x := fun x hx =>
    (h3.kept x (Layout.kept_other hne (by omega) hhi hx)).trans (store_of_not_span (hreg0 hx))
  have hsp : s3.reg .rax = base - 144 := by
    rw [h3.reg .rax nofun]
    change ρ' .rax = _
    rw [hrax, ← hP.reg0]
    refine load_store_of_disjoint fun x hx hx' => ?_
    exact absurd (Layout.Field.unique (L := L) (.inl hx) (.inl hx')) nofun
  -- the view moves to the other stack
  have h4 : View (L.room .preemptive base hP.lo hP.hi) s3.mem
      ⟨ρ', (ν .handlerHelper).rflags, load s.mem (Layout.fsField (L.ctx .preemptive)),
        load s.mem (Layout.gsField (L.ctx .preemptive)), false,
        { s.world with currCtx := L.ctx .preemptive }, F.words⟩
      (exec L.env ν (.mov .rax .rsp) s3) := by
    rw [exec, hsp]
    refine ⟨show 18 ≤ 48 by norm_num, State.reg_set_self _ _ _, ?_, fun _ _ => rfl, fun r hr => ?_,
      h3.rflags,
      h3.fs, h3.gs, h3.uif, h3.world⟩
    · rw [State.reg_set_self]
      refine hP.frame.congr (show 8 * 18 ≤ 2 ^ 64 by norm_num) fun x hx => (hstackP x ?_).symm
      have hpos := Stack.pos_of_span (k := L.stack .preemptive) (n := 144)
        (by have := hP.lo; omega) hx
      exact Nat.lt_of_lt_of_le hpos.2 hP.hi
    · rw [State.reg_set_of_ne _ _ hr]
      exact h3.reg r hr
  obtain ⟨m', hexit, hkept⟩ := restoreContext_state (ν := ν) (F := F) h4 rfl
  have hstackM : ∀ x, (L.stack .main).Has x → m' x = s3.mem x := fun x hx =>
    hkept x (Layout.kept_other hne.symm (by have := hP.lo; omega) hP.hi hx)
  have hfield : ∀ d x, L.Field d x → m' x = s3.mem x := fun d x hx => hkept x (.inl ⟨d, hx⟩)
  have hfield' : ∀ d x, L.Field d x → ¬ Span (Layout.reg0 (L.ctx .main)) 8 x → m' x = s.mem x :=
    fun d x hx hne =>
      (hfield d x hx).trans ((h3.kept x (.inl ⟨d, hx⟩)).trans (store_of_not_span hne))
  refine ⟨m', ?_, ⟨?_, ?_, ?_, ?_, ?_⟩, hfield'⟩
  · rw [hrun, execs, execs, execs, ← hs3, hexit]
  · rw [load_congr fun x hx => hfield .main x (.inl hx),
      load_field (d := .main) h3 fun x hx => .inl hx, load_store]
    exact hrdi
  · have hframe := h3.holds
    have hrsp : s3.reg .rsp = s.reg .rsp - 272 := by
      rw [h3.rsp]
      change s.reg .rsp - 128 - 144 = _
      bv_omega
    rw [hrsp] at hframe
    exact hframe.congr (show 8 * 18 ≤ 2 ^ 64 by norm_num) fun x hx =>
      (hstackM x (hfits.has_frame hx)).symm
  · rw [hfs]
    exact load_congr fun x hx => hfield' .main x (.inr (.inl hx)) (Layout.reg0_apart (.inl rfl) hx)
  · rw [hgs]
    exact load_congr fun x hx => hfield' .main x (.inr (.inr hx)) (Layout.reg0_apart (.inr rfl) hx)
  · intro x hx hge
    rw [hstackM x hx, h3.kept x (.inr ⟨.main, hx, fun _ => hge⟩), store_of_not_span (hreg0 hx)]

end Interrupts

end PreemptDB
