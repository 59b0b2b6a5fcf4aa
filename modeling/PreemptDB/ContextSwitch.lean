/-
Switching between the two contexts of a worker (`uintr.cc`).

A worker thread has a main and a preemptive context, each with a stack, an FS
and a GS base and a `pcontext`.  A user interrupt runs `interrupt_handler_func`
on the stack of the interrupted context; if its lock counter is zero, the
handler leaves through the frame saved on the preemptive stack.  The preemptive
context goes back with `swap_context`.

* `Layout` — where stacks, `pcontext`s and code lie in memory;
* `interruptHandlerFunc`, `swapContext`, `initStack` — the assembly;
* `handlerHelper`, `swapHelper` — the C++ functions it calls;
* `Cpu.Step` — compiled code, interrupts and calls of `swap_context`.
-/
import PreemptDB.X86

namespace PreemptDB

open WordMem X86

/-- The two contexts of a worker. -/
inductive Ctx
  | main | preemptive
  deriving DecidableEq, Repr

instance : Fintype Ctx where
  elems := {.main, .preemptive}
  complete c := by cases c <;> decide

/-- The C++ functions that the assembly calls. -/
inductive Helper
  | recordInterruptStart | recordInterruptEndNormal | recordInterruptEndQuick
  | handlerHelper | swapHelper
  deriving DecidableEq, Repr

/-- The labels `.l_swap_context` and `.l_end_swap_context`. -/
inductive SwapLabel
  | swapContext | endSwapContext
  deriving DecidableEq, Repr

/-- Instructions of the assembly. -/
abbrev Asm := Instr Helper SwapLabel

/-- The bytes of a stack, `lo` being the lowest one. -/
structure Stack where
  lo : Word
  size : ℕ

/-- How far `x` is above the low end. -/
def Stack.pos (k : Stack) (x : Word) : ℕ := (x - k.lo).toNat

def Stack.Has (k : Stack) (x : Word) : Prop := Span k.lo k.size x

instance (k : Stack) (x : Word) : Decidable (k.Has x) :=
  inferInstanceAs (Decidable (Span k.lo k.size x))

section Assembly

open Instr Reg

/-- `.uintr_quick_exit` -/
def uintrQuickExit : List Asm :=
  [push r11, push r10, push r9, push r8, push rcx, push rdx, push rsi, push rdi, sub 8 rsp,
   cld, call .recordInterruptEndQuick, add 8 rsp,
   pop rdi, pop rsi, pop rdx, pop rcx, pop r8, pop r9, pop r10, pop r11,
   pop rbx, pop rax, uiret]

/-- `.continue_uintr_handler`, up to the switch of the stack. -/
def saveContext : List Asm :=
  [push rcx, push rdx, push rbp, push rsi, push rdi, push r8, push r9, push r10, push r11,
   push r12, push r13, push r14, push r15, mov rsp rdi, cld]

/-- `.continue_uintr_handler`, after the switch of the stack. -/
def restoreContext : List Asm :=
  [pop r15, pop r14, pop r13, pop r12, pop r11, pop r10, pop r9, pop r8, pop rdi, pop rsi,
   pop rbp, pop rdx, pop rcx, pop rbx, pop rax,
   push r11, push r10, push r9, push r8, push rax, push rcx, push rdx, push rsi, push rdi,
   sub 8 rsp, cld, call .recordInterruptEndNormal, add 8 rsp,
   pop rdi, pop rsi, pop rdx, pop rcx, pop rax, pop r8, pop r9, pop r10, pop r11]

def continueUintrHandler : List Asm :=
  saveContext ++ [call .handlerHelper, mov rax rsp] ++ restoreContext ++ [uiret]

/-- `interrupt_handler_func`, up to the first comparison. -/
def handlerEntry : List Asm :=
  [endbr64, add 8 rsp, push rax, push rbx,
   push r11, push r10, push r9, push r8, push rcx, push rdx, push rsi, push rdi, sub 8 rsp,
   cld, call .recordInterruptStart, add 8 rsp,
   pop rdi, pop rsi, pop rdx, pop rcx, pop r8, pop r9, pop r10, pop r11,
   load 0x10 rsp rax, lea .endSwapContext rbx, cmp rbx rax]

def interruptHandlerFunc : Code Helper SwapLabel :=
  .jg handlerEntry (.block continueUintrHandler)
    (.jg [lea .swapContext rbx, cmp rbx rax] (.block uintrQuickExit) (.block continueUintrHandler))

/-- `swap_context`, up to the switch of the stack. -/
def swapOut : List Asm :=
  [endbr64, clui, pop rcx, push rsp, pushfq, push rcx,
   push rax, push rbx, push rcx, push rdx, push rbp, push rsi, push rdi, push r8, push r9,
   push r10, push r11, push r12, push r13, push r14, push r15,
   .store rsp 0x2000 rdi, push rsi, mov rsi rdi, cld, call .swapHelper, pop rsi]

/-- `swap_context`, on the stack of the next context; the last instruction of
the function follows. -/
def swapIn : List Asm :=
  [load 0x2000 rsi rsp,
   pop r15, pop r14, pop r13, pop r12, pop r11, pop r10, pop r9, pop r8, pop rdi, pop rsi,
   pop rbp, pop rdx, pop rcx,
   load 32 rsp rax, load 16 rsp rbx, .store rbx (-0x80) rax,
   pop rbx, pop rax, add 8 rsp, popfq, pop rsp, stui]

def swapContext : List Asm := swapOut ++ swapIn ++ [jmp (-0x80) rsp]

/-- `init_stack` -/
def initStack : List Asm :=
  [endbr64, mov rsp rcx, mov rdi rsp, and 0xfffffffffffffff0 rsp,
   push rdi, pushfq, push rsi,
   push rax, push rbx, push rcx, push rdx, push rdi, push rsi, push rdi, push r8, push r9,
   push r10, push r11, push r12, push r13, push r14, push r15,
   mov rsp rax, mov rcx rsp, ret]

end Assembly

/-- The address of the instruction after `is`, which begins at `a`. -/
def addrAfter (len : Asm → ℕ) (a : Word) (is : List Asm) : Word :=
  a + BitVec.ofNat 64 ((is.map len).sum)

/-- Where the stacks, the `pcontext`s and the code of `swap_context` lie. -/
structure Layout where
  stack : Ctx → Stack
  /-- `MainContext()` and `PreemptiveContext()` -/
  ctx : Ctx → Word
  /-- `.l_swap_context` -/
  swapAddr : Word
  handlerAddr : Word
  /-- the length of an encoded instruction -/
  len : Asm → ℕ
  len_pos : ∀ i, 0 < len i
  /-- code lies in the lower half of the address space -/
  swap_fits : swapAddr.toNat + (swapContext.map len).sum < 2 ^ 63
  ctx_ne_null : ∀ c, ctx c ≠ 0
  /-- `aligned_alloc(64, 16 * 1024 * 1024)` in `PreemptiveStack` -/
  size_preemptive : (stack .preemptive).size = 16 * 1024 * 1024
  size_le : ∀ c, (stack c).size ≤ 2 ^ 62
  stacks_apart : ∀ x, (stack .main).Has x → ¬ (stack .preemptive).Has x
  ctx_apart : ∀ x, Span (ctx .main) 0x2080 x → ¬ Span (ctx .preemptive) 0x2080 x
  ctx_stack_apart : ∀ c c' x, Span (ctx c) 0x2080 x → ¬ (stack c').Has x

namespace Layout

variable (L : Layout)

/-- `.l_end_swap_context` -/
def endSwapAddr : Word := addrAfter L.len L.swapAddr swapContext

/-- The fields `reg[0]`, `fs` and `gs` of a `pcontext`. -/
def reg0 (p : Word) : Word := p + 0x2000
def fsField (p : Word) : Word := p + 0x2028
def gsField (p : Word) : Word := p + 0x2030

/-- `x` is a byte of `reg[0]`, `fs` or `gs` of a context. -/
def Field (c : Ctx) (x : Word) : Prop :=
  Span (reg0 (L.ctx c)) 8 x ∨ Span (fsField (L.ctx c)) 8 x ∨ Span (gsField (L.ctx c)) 8 x

/-- `x` must not be changed by a function that runs with stack pointer `sp`: it
is one of the fields above, or on a stack, and not below `sp` on its own stack. -/
def Kept (sp x : Word) : Prop :=
  (∃ c, L.Field c x) ∨
    ∃ c, (L.stack c).Has x ∧ ((L.stack c).Has (sp - 1) → (L.stack c).pos sp ≤ (L.stack c).pos x)

instance (c : Ctx) (x : Word) : Decidable (L.Field c x) :=
  inferInstanceAs (Decidable (Span _ 8 x ∨ Span _ 8 x ∨ Span _ 8 x))

instance (sp x : Word) : Decidable (L.Kept sp x) :=
  inferInstanceAs (Decidable ((∃ c, L.Field c x) ∨
    ∃ c, (L.stack c).Has x ∧ ((L.stack c).Has (sp - 1) → (L.stack c).pos sp ≤ (L.stack c).pos x)))

end Layout

/-- The variables of the C++ code.  `lock_counter` is thread-local, so there is
one for each FS base; `currCtx` is the entry of this worker. -/
structure SwitchVars where
  lockCounter : Word → ℕ
  currCtx : Word

/-- States of the worker thread. -/
abbrev Cpu := State SwitchVars

/-- `pcontext::get_current_context` -/
def getCurrentContext (L : Layout) (w : SwitchVars) : Word :=
  if w.currCtx = 0 then L.ctx .main else w.currCtx

/-- Install the FS and GS bases of `p`. -/
def Cpu.enter (s : Cpu) (p : Word) : Cpu :=
  { s with
    fs := load s.mem (Layout.fsField p)
    gs := load s.mem (Layout.gsField p)
    world := { s.world with currCtx := p } }

/-- `handler_helper` -/
def handlerHelperCall (L : Layout) (rsp : Word) (s : Cpu) : Cpu :=
  if 0 < s.world.lockCounter s.fs then s.set .rax rsp
  else
    let saved : Cpu :=
      { s with mem := WordMem.store s.mem (Layout.reg0 (getCurrentContext L s.world)) rsp }
    let p := L.ctx .preemptive
    (saved.enter p).set .rax (load saved.mem (Layout.reg0 p))

/-- `swap_helper` -/
def swapHelperCall (next : Word) (s : Cpu) : Cpu := s.enter next

/-- The surroundings of the assembly. -/
def Layout.env (L : Layout) : Env Helper SwapLabel SwitchVars where
  addr
    | .swapContext => L.swapAddr
    | .endSwapContext => L.endSwapAddr
  call
    | .handlerHelper => handlerHelperCall L
    | .swapHelper => swapHelperCall
    | _ => fun _ s => s
  keeps sp x := decide (L.Kept sp x)

/-- A user interrupt, from its delivery to the `uiret` of the handler. -/
def interrupt (L : Layout) (ν : Helper → Clobber) (vector : Word) (s : Cpu) : Cpu :=
  interruptHandlerFunc.run L.env ν (deliver L.handlerAddr vector s)

/-- A run of instructions that begin at `a`.  Before each of them an interrupt
may be delivered, if it is not masked; it comes back to the same instruction. -/
inductive Runs (L : Layout) (ν : Helper → Clobber) : Word → List Asm → Cpu → Cpu → Prop
  | done (a : Word) (s : Cpu) : Runs L ν a [] s s
  | instr {a : Word} {i : Asm} {is : List Asm} {s t : Cpu}
      (h : Runs L ν (addrAfter L.len a [i]) is (exec L.env ν i s) t) : Runs L ν a (i :: is) s t
  | interrupt {a : Word} {i : Asm} {is : List Asm} {s t : Cpu} (ν' : Helper → Clobber)
      (vector : Word) (huif : s.uif = true)
      (hback : (interrupt L ν' vector { s with rip := a }).rip = a)
      (h : Runs L ν a (i :: is) (interrupt L ν' vector { s with rip := a }) t) :
      Runs L ν a (i :: is) s t

/-- A complete call of `swap_context(cur, next)`; the return address is on the
stack. -/
structure SwapCall (L : Layout) (cur next : Ctx) (s t : Cpu) : Prop where
  rip : s.rip = L.swapAddr
  rdi : s.reg .rdi = L.ctx cur
  rsi : s.reg .rsi = L.ctx next
  ret : (L.stack cur).pos (s.reg .rsp) + 8 ≤ (L.stack cur).size
  runs : ∃ ν, Runs L ν L.swapAddr swapContext s t

/-- The stack of `c` does not overflow: there is room below `sp` for the red zone
and the frames of the handler. -/
def Layout.Fits (L : Layout) (c : Ctx) (sp : Word) : Prop :=
  1024 ≤ (L.stack c).pos sp ∧ (L.stack c).pos sp ≤ (L.stack c).size

/-- Compiled code of the context `c` runs on its own stack: it leaves the other
one, the saved fields and the FS and GS bases alone. -/
structure Compiled (L : Layout) (c : Ctx) (s t : Cpu) : Prop where
  fs : t.fs = s.fs
  gs : t.gs = s.gs
  currCtx : t.world.currCtx = s.world.currCtx
  field : ∀ c' x, L.Field c' x → t.mem x = s.mem x
  other : ∀ c' x, c' ≠ c → (L.stack c').Has x → t.mem x = s.mem x
  fits : L.Fits c (t.reg .rsp)

/-- What the thread does once the handler is registered. -/
inductive Cpu.Step (L : Layout) : Cpu → Cpu → Prop
  | code {c : Ctx} {s t : Cpu} (hc : getCurrentContext L s.world = L.ctx c)
      (h : Compiled L c s t) : Step L s t
  | interrupt {s : Cpu} (ν : Helper → Clobber) (vector : Word) (huif : s.uif = true) :
      Step L s (interrupt L ν vector s)
  | swap {s t : Cpu} (hc : getCurrentContext L s.world = L.ctx .preemptive)
      (h : SwapCall L .preemptive .main s t) : Step L s t

/-- `PreemptiveStack()` -/
def Layout.preemptiveStack (L : Layout) : Word :=
  (L.stack .preemptive).lo + 16 * 1024 * 1024 - 8

/-- The part of `MyWork` that sets up the contexts: `init_stack(PreemptiveStack(), fn)`
and the fields of the two `pcontext`s; `fs` and `gs` are those of the shadow
thread. -/
def setupContexts (L : Layout) (ν : Helper → Clobber) (fn ret fs gs : Word) (s : Cpu) : Cpu :=
  let t := execs L.env ν initStack
    (((s.set .rdi L.preemptiveStack).set .rsi fn).push ret)
  let m := WordMem.store t.mem (Layout.reg0 (L.ctx .preemptive)) (t.reg .rax)
  let m := WordMem.store m (Layout.fsField (L.ctx .preemptive)) fs
  let m := WordMem.store m (Layout.gsField (L.ctx .preemptive)) gs
  let m := WordMem.store m (Layout.fsField (L.ctx .main)) t.fs
  { t with mem := WordMem.store m (Layout.gsField (L.ctx .main)) t.gs }

/-- The states of a worker thread that has been set up from `boot`, on which the
main context was running. -/
inductive Cpu.Reached (L : Layout) : Cpu → Prop
  | setup {boot : Cpu} (ν : Helper → Clobber) (fn ret fs gs : Word)
      (hc : getCurrentContext L boot.world = L.ctx .main) (hfits : L.Fits .main (boot.reg .rsp)) :
      Reached L (setupContexts L ν fn ret fs gs boot)
  | step {s t : Cpu} (hs : Reached L s) (h : Step L s t) : Reached L t

end PreemptDB
