/-
The part of x86-64 that hand-written context switches use.

A state has the sixteen general registers, RIP, RFLAGS, the FS and GS bases, the
user-interrupt flag and byte memory; `ω` stands for the variables of the program
around the code.  Functions that are called obey the System V convention: what
it leaves open is handed to the step as a `Clobber`.

* `exec` — one instruction; `Code.run` — code with forward jumps;
* `deliver` — the delivery of a user interrupt;
* `Shadow` — a state whose stack is a list of words, `Shadow.exec` the same
  instructions on it;
* `View.execs` — a block does on the bytes what it does on the list.
-/
import PreemptDB.WordMem

namespace X86

open WordMem

inductive Reg
  | rax | rbx | rcx | rdx | rsp | rbp | rsi | rdi
  | r8 | r9 | r10 | r11 | r12 | r13 | r14 | r15
  deriving DecidableEq, Repr

/-- The registers that a called function gives back as they were. -/
def Reg.calleeSaved : Reg → Bool
  | .rbx | .rsp | .rbp | .r12 | .r13 | .r14 | .r15 => true
  | _ => false

/-- Instructions, over the functions `η` that can be called and the labels `κ`.
Operands stand in the order of the assembler: source first. -/
inductive Instr (η κ : Type)
  | endbr64 | cld | clui | stui | pushfq | popfq | ret | uiret
  | push (r : Reg)
  | pop (r : Reg)
  | add (n : Word) (r : Reg)
  | sub (n : Word) (r : Reg)
  | and (n : Word) (r : Reg)
  | mov (src dst : Reg)
  | load (d : Word) (base dst : Reg)
  | store (src : Reg) (d : Word) (base : Reg)
  | lea (l : κ) (dst : Reg)
  | cmp (src dst : Reg)
  | call (h : η)
  | jmp (d : Word) (base : Reg)

@[ext]
structure State (ω : Type) where
  reg : Reg → Word
  rip : Word
  rflags : Word
  fs : Word
  gs : Word
  uif : Bool
  mem : Mem
  world : ω

variable {η κ ω : Type}

def State.set (s : State ω) (r : Reg) (v : Word) : State ω :=
  { s with reg := Function.update s.reg r v }

/-- `push`, for any word. -/
def State.push (s : State ω) (v : Word) : State ω :=
  { s.set .rsp (s.reg .rsp - 8) with mem := store s.mem (s.reg .rsp - 8) v }

@[simp] theorem State.reg_set_self (s : State ω) (r : Reg) (v : Word) : (s.set r v).reg r = v := by
  simp [State.set]

@[simp] theorem State.reg_set_of_ne (s : State ω) {r r' : Reg} (v : Word) (h : r' ≠ r) :
    (s.set r v).reg r' = s.reg r' := by
  simp [State.set, h]

/-- Loading RSP with its own value. -/
theorem State.set_self (s : State ω) (r : Reg) : s.set r (s.reg r) = s := by
  rw [State.set, Function.update_eq_self]

@[simp] theorem State.mem_set (s : State ω) (r : Reg) (v : Word) : (s.set r v).mem = s.mem := rfl

section Flags

/-- Bit `i` of RFLAGS set to `b`. -/
def setFlag (f : Word) (i : ℕ) (b : Bool) : Word :=
  if b then f ||| BitVec.twoPow 64 i else f &&& ~~~BitVec.twoPow 64 i

/-- The low byte has an even number of ones. -/
def parity (v : Word) : Bool := ((List.range 8).filter v.getLsbD).length % 2 == 0

/-- The status flags of a result `v`: CF, PF, AF, ZF, SF and OF. -/
def status (f v : Word) (carry aux overflow : Bool) : Word :=
  setFlag (setFlag (setFlag (setFlag (setFlag (setFlag f 0 carry) 2 (parity v)) 4 aux)
    6 (v == 0)) 7 v.msb) 11 overflow

def addFlags (f a b : Word) : Word :=
  status f (a + b) (a.uaddOverflow b) (16 ≤ a.toNat % 16 + b.toNat % 16) (a.saddOverflow b)

def subFlags (f a b : Word) : Word :=
  status f (a - b) (a.usubOverflow b) (a.toNat % 16 < b.toNat % 16) (a.ssubOverflow b)

/-- The condition of `jg`: ZF is clear, and SF and OF agree. -/
def greater (f : Word) : Bool := !f.getLsbD 6 && f.getLsbD 7 == f.getLsbD 11

theorem getLsbD_setFlag (f : Word) {i j : ℕ} (hi : i < 64) (hj : j < 64) (b : Bool) :
    (setFlag f i b).getLsbD j = if j = i then b else f.getLsbD j := by
  cases b <;> by_cases h : j = i <;> simp [setFlag, hi, hj, h]

theorem greater_status (f v : Word) (carry aux overflow : Bool) :
    greater (status f v carry aux overflow) = (!(v == 0) && v.msb == overflow) := by
  simp (disch := decide) only [greater, status, getLsbD_setFlag]
  rfl

/-- After `cmp`, `jg` compares the operands as signed numbers. -/
theorem greater_subFlags (f a b : Word) : greater (subFlags f a b) = b.slt a := by
  have hsub : (a - b).toInt = (a.toInt - b.toInt).bmod (2 ^ 64) := BitVec.toInt_sub
  have hzero : (a - b == 0) = decide ((a - b).toInt = 0) := by
    rw [Bool.eq_iff_iff, beq_iff_eq, decide_eq_true_iff, ← BitVec.toInt_inj]
    rfl
  have ha := BitVec.toInt_lt (x := a)
  have ha' := BitVec.le_toInt (x := a)
  have hb := BitVec.toInt_lt (x := b)
  have hb' := BitVec.le_toInt (x := b)
  rw [subFlags, greater_status, hzero, BitVec.msb_eq_toInt, BitVec.slt_eq_decide,
    Bool.eq_iff_iff]
  simp only [BitVec.ssubOverflow, Bool.and_eq_true, Bool.not_eq_true', decide_eq_false_iff_not,
    beq_iff_eq, decide_eq_true_eq, decide_eq_decide, ← Bool.decide_or]
  rw [hsub, Int.bmod]
  split <;> omega

end Flags

/-- What the calling convention leaves open at a call. -/
structure Clobber where
  reg : Reg → Word
  rflags : Word
  mem : Mem

/-- The surroundings of the code: where its labels are, what the functions do
with their first argument, and which bytes a function leaves alone when it is
called with a given stack pointer. -/
structure Env (η κ ω : Type) where
  addr : κ → Word
  call : η → Word → State ω → State ω
  keeps : Word → Word → Bool

/-- A call, apart from what the function is for. -/
def State.clobber (E : Env η κ ω) (ν : Clobber) (s : State ω) : State ω :=
  { s with
    reg := fun r => if r.calleeSaved then s.reg r else ν.reg r
    rflags := ν.rflags
    mem := fun x => if E.keeps (s.reg .rsp) x then s.mem x else ν.mem x }

/-- One instruction.  The return address of a call lies in the area that the
function may overwrite, so it is part of the clobbered memory. -/
def exec (E : Env η κ ω) (ν : η → Clobber) : Instr η κ → State ω → State ω
  | .endbr64, s => s
  | .cld, s => { s with rflags := setFlag s.rflags 10 false }
  | .clui, s => { s with uif := false }
  | .stui, s => { s with uif := true }
  | .pushfq, s => s.push s.rflags
  | .popfq, s => { s.set .rsp (s.reg .rsp + 8) with rflags := load s.mem (s.reg .rsp) }
  | .ret, s => { s.set .rsp (s.reg .rsp + 8) with rip := load s.mem (s.reg .rsp) }
  | .uiret, s =>
    { s.set .rsp (load s.mem (s.reg .rsp + 16)) with
      rip := load s.mem (s.reg .rsp)
      rflags := load s.mem (s.reg .rsp + 8)
      uif := true }
  | .push r, s => s.push (s.reg r)
  | .pop r, s => (s.set .rsp (s.reg .rsp + 8)).set r (load s.mem (s.reg .rsp))
  | .add n r, s => { s.set r (s.reg r + n) with rflags := addFlags s.rflags (s.reg r) n }
  | .sub n r, s => { s.set r (s.reg r - n) with rflags := subFlags s.rflags (s.reg r) n }
  | .and n r, s =>
    { s.set r (s.reg r &&& n) with rflags := status s.rflags (s.reg r &&& n) false false false }
  | .mov src dst, s => s.set dst (s.reg src)
  | .load d base dst, s => s.set dst (load s.mem (s.reg base + d))
  | .store src d base, s => { s with mem := store s.mem (s.reg base + d) (s.reg src) }
  | .lea l dst, s => s.set dst (E.addr l)
  | .cmp src dst, s => { s with rflags := subFlags s.rflags (s.reg dst) (s.reg src) }
  | .call h, s => E.call h (s.reg .rdi) (s.clobber E (ν h))
  | .jmp d base, s => { s with rip := load s.mem (s.reg base + d) }

/-- A block of instructions. -/
def execs (E : Env η κ ω) (ν : η → Clobber) : List (Instr η κ) → State ω → State ω
  | [], s => s
  | i :: is, s => execs E ν is (exec E ν i s)

theorem execs_append (E : Env η κ ω) (ν : η → Clobber) (is js : List (Instr η κ)) (s : State ω) :
    execs E ν (is ++ js) s = execs E ν js (execs E ν is s) := by
  induction is generalizing s with
  | nil => rfl
  | cons i is ih => exact ih _

/-- Code whose jumps go forward: `jg is c d` goes on with `c` if the block `is`
ends in a taken `jg`, and with `d` otherwise. -/
inductive Code (η κ : Type)
  | block (is : List (Instr η κ))
  | jg (is : List (Instr η κ)) (taken next : Code η κ)

def Code.run (E : Env η κ ω) (ν : η → Clobber) : Code η κ → State ω → State ω
  | .block is, s => execs E ν is s
  | .jg is c d, s =>
    if greater (execs E ν is s).rflags then c.run E ν (execs E ν is s)
    else d.run E ν (execs E ν is s)

/-- The delivery of a user interrupt: below the red zone, RSP, RFLAGS, RIP and
the vector are pushed, and further interrupts are masked. -/
def deliver (handler vector : Word) (s : State ω) : State ω :=
  { ((((s.set .rsp (s.reg .rsp - 128)).push (s.reg .rsp)).push s.rflags).push s.rip).push
      vector with
    rip := handler
    uif := false }

/-- A state in which the stack is a list of words; the register RSP is not used. -/
structure Shadow (ω : Type) where
  reg : Reg → Word
  rflags : Word
  fs : Word
  gs : Word
  uif : Bool
  world : ω
  stack : List (Option Word)

namespace Shadow

/-- RSP, when the stack begins at `base`. -/
def sp (base : Word) (a : Shadow ω) : Word := base - BitVec.ofNat 64 (8 * a.stack.length)

def get (base : Word) (a : Shadow ω) (r : Reg) : Word := if r = .rsp then a.sp base else a.reg r

def set (a : Shadow ω) (r : Reg) (v : Word) : Shadow ω :=
  { a with reg := Function.update a.reg r v }

/-- The instructions that a block of a context switch uses on its own stack.
Only calls of functions in `silent` are followed. -/
def exec (E : Env η κ ω) (ν : η → Clobber) (base : Word) (silent : η → Bool) :
    Instr η κ → Shadow ω → Option (Shadow ω)
  | .endbr64, a => some a
  | .cld, a => some { a with rflags := setFlag a.rflags 10 false }
  | .clui, a => some { a with uif := false }
  | .stui, a => some { a with uif := true }
  | .pushfq, a => some { a with stack := some a.rflags :: a.stack }
  | .popfq, a =>
    match a.stack with
    | some w :: ws => some { a with rflags := w, stack := ws }
    | _ => none
  | .push r, a => some { a with stack := some (a.get base r) :: a.stack }
  | .pop r, a =>
    match a.stack with
    | some w :: ws => if r = .rsp then none else some { a.set r w with stack := ws }
    | _ => none
  | .add n .rsp, a =>
    match a.stack with
    | _ :: ws =>
      if n = 8 then some { a with stack := ws, rflags := addFlags a.rflags (a.sp base) n } else none
    | [] => none
  | .sub n .rsp, a =>
    if n = 8 then
      some { a with stack := none :: a.stack, rflags := subFlags a.rflags (a.sp base) n }
    else none
  | .mov src dst, a => if dst = .rsp then none else some (a.set dst (a.get base src))
  | .load d .rsp dst, a =>
    match a.stack[d.toNat / 8]? with
    | some (some w) => if dst = .rsp ∨ d.toNat % 8 ≠ 0 then none else some (a.set dst w)
    | _ => none
  | .lea l dst, a => if dst = .rsp then none else some (a.set dst (E.addr l))
  | .cmp src dst, a => some { a with rflags := subFlags a.rflags (a.get base dst) (a.get base src) }
  | .call h, a =>
    if silent h then
      some { a with
        reg := fun r => if r.calleeSaved then a.reg r else (ν h).reg r
        rflags := (ν h).rflags }
    else none
  | _, _ => none

/-- A block, in a room of `size` words. -/
def execs (E : Env η κ ω) (ν : η → Clobber) (base : Word) (size : ℕ) (silent : η → Bool) :
    List (Instr η κ) → Shadow ω → Option (Shadow ω)
  | [], a => some a
  | i :: is, a =>
    if a.stack.length < size then
      (a.exec E ν base silent i).bind (execs E ν base size silent is)
    else none

end Shadow

/-- A place for a stack: the `size` words below `base` are free, and the bytes
`kept` lie elsewhere. -/
structure Room where
  base : Word
  size : ℕ
  kept : Word → Prop
  small : 8 * size ≤ 2 ^ 62
  free : ∀ x, Span (base - BitVec.ofNat 64 (8 * size)) (8 * size) x → ¬ kept x

/-- A function that is called with its stack pointer in the room leaves the kept
bytes and the stack above the pointer alone. -/
def Room.Respected (R : Room) (E : Env η κ ω) : Prop :=
  ∀ n ≤ R.size, ∀ x,
    R.kept x ∨ Span (R.base - BitVec.ofNat 64 (8 * n)) (8 * n) x →
      E.keeps (R.base - BitVec.ofNat 64 (8 * n)) x = true

/-- The state `s` looks like `a`, with its stack in the room `R`, and the kept
bytes are those of `m`. -/
structure View (R : Room) (m : Mem) (a : Shadow ω) (s : State ω) : Prop where
  fits : a.stack.length ≤ R.size
  rsp : s.reg .rsp = a.sp R.base
  holds : Holds s.mem (s.reg .rsp) a.stack
  kept : ∀ x, R.kept x → s.mem x = m x
  reg : ∀ r, r ≠ .rsp → s.reg r = a.reg r
  rflags : s.rflags = a.rflags
  fs : s.fs = a.fs
  gs : s.gs = a.gs
  uif : s.uif = a.uif
  world : s.world = a.world

/-- A state with the words `ws` on its stack. -/
def State.shadow (s : State ω) (ws : List (Option Word)) : Shadow ω :=
  ⟨s.reg, s.rflags, s.fs, s.gs, s.uif, s.world, ws⟩

namespace View

variable {R : Room} {m : Mem} {a a' : Shadow ω} {s : State ω} {E : Env η κ ω}
  {ν : η → Clobber} {silent : η → Bool}

/-- The empty stack at the base of a room. -/
theorem of_base (h : s.reg .rsp = R.base) : View R s.mem (s.shadow []) s :=
  ⟨Nat.zero_le _, by simpa [Shadow.sp, State.shadow] using h, trivial, fun _ _ => rfl,
    fun _ _ => rfl, rfl, rfl, rfl, rfl, rfl⟩

theorem get (h : View R m a s) (r : Reg) : s.reg r = a.get R.base r := by
  rw [Shadow.get]
  split
  · next hr => rw [hr, h.rsp]
  · next hr => exact h.reg r hr

theorem set (h : View R m a s) {r : Reg} (hr : r ≠ .rsp) (v : Word) :
    View R m (a.set r v) (s.set r v) := by
  have hsp : (s.set r v).reg .rsp = s.reg .rsp := s.reg_set_of_ne v hr.symm
  refine ⟨h.fits, hsp.trans h.rsp, hsp ▸ h.holds, h.kept, fun r' hr' => ?_, h.rflags, h.fs, h.gs,
    h.uif, h.world⟩
  by_cases heq : r' = r
  · subst heq
    simp [State.set, Shadow.set]
  · simpa [State.set, Shadow.set, heq] using h.reg r' hr'

theorem congr_reg (h : View R m a s) {ρ : Reg → Word} (hρ : ∀ r, r ≠ .rsp → a.reg r = ρ r) :
    View R m { a with reg := ρ } s :=
  ⟨h.fits, h.rsp, h.holds, h.kept, fun r hr => (h.reg r hr).trans (hρ r hr), h.rflags, h.fs, h.gs,
    h.uif, h.world⟩

theorem flags (h : View R m a s) (f : Word) :
    View R m { a with rflags := f } { s with rflags := f } :=
  ⟨h.fits, h.rsp, h.holds, h.kept, h.reg, rfl, h.fs, h.gs, h.uif, h.world⟩

/-- A word is stored outside the stack. -/
theorem store (h : View R m a s) {x : Word} (v : Word)
    (hx : ∀ y, Span x 8 y → ¬ Span (s.reg .rsp) (8 * a.stack.length) y) :
    View R (store m x v) a { s with mem := store s.mem x v } := by
  have hsmall := R.small
  have hfits := h.fits
  refine ⟨h.fits, h.rsp, ?_, fun y hy => ?_, h.reg, h.rflags, h.fs, h.gs, h.uif, h.world⟩
  · exact h.holds.congr (by omega) fun y hy => (store_of_not_span fun hs => hx y hs hy).symm
  · simp only [WordMem.store, h.kept y hy]

theorem push (h : View R m a s) (hfits : a.stack.length < R.size) (v : Word) :
    View R m { a with stack := some v :: a.stack } (s.push v) := by
  have hsmall := R.small
  have hsp : (s.push v).reg .rsp = s.reg .rsp - 8 := s.reg_set_self .rsp _
  have hrsp := h.rsp
  rw [Shadow.sp] at hrsp
  refine ⟨hfits, ?_, ?_, fun x hx => ?_, fun r hr => ?_, h.rflags, h.fs, h.gs, h.uif, h.world⟩
  · rw [hsp, hrsp, Shadow.sp, List.length_cons]
    bv_omega
  · rw [hsp]
    exact h.holds.push v (by omega)
  · -- the new word is in the free part of the room
    rw [← h.kept x hx]
    refine store_of_not_span fun hspan => R.free x ?_ hx
    rw [hrsp] at hspan
    rw [Span] at hspan ⊢
    bv_omega
  · rw [← h.reg r hr]
    exact s.reg_set_of_ne _ hr

/-- Leaving room for a word. -/
theorem lower (h : View R m a s) (hfits : a.stack.length < R.size) :
    View R m { a with stack := none :: a.stack } (s.set .rsp (s.reg .rsp - 8)) := by
  have hsmall := R.small
  have hsp : (s.set .rsp (s.reg .rsp - 8)).reg .rsp = s.reg .rsp - 8 := s.reg_set_self .rsp _
  refine ⟨hfits, ?_, ?_, h.kept, fun r hr => ?_, h.rflags, h.fs, h.gs, h.uif, h.world⟩
  · rw [hsp, h.rsp, Shadow.sp, Shadow.sp, List.length_cons]
    bv_omega
  · rw [hsp]
    refine ⟨nofun, ?_⟩
    rw [BitVec.sub_add_cancel]
    exact h.holds
  · rw [← h.reg r hr]
    exact s.reg_set_of_ne _ hr

/-- Leaving the topmost word. -/
theorem drop {w : Option Word} {ws : List (Option Word)} (h : View R m a s)
    (hstack : a.stack = w :: ws) :
    View R m { a with stack := ws } (s.set .rsp (s.reg .rsp + 8)) := by
  have hfits := h.fits
  have hholds := h.holds
  have hrsp := h.rsp
  have hsmall := R.small
  rw [hstack, List.length_cons] at hfits
  rw [hstack] at hholds
  rw [Shadow.sp, hstack, List.length_cons] at hrsp
  have hsp : (s.set .rsp (s.reg .rsp + 8)).reg .rsp = s.reg .rsp + 8 := s.reg_set_self .rsp _
  refine ⟨by simpa using Nat.le_of_succ_le hfits, ?_, hsp ▸ hholds.2, h.kept, fun r hr => ?_,
    h.rflags, h.fs, h.gs, h.uif, h.world⟩
  · rw [hsp, hrsp, Shadow.sp]
    bv_omega
  · rw [← h.reg r hr]
    exact s.reg_set_of_ne _ hr

/-- The topmost word. -/
theorem top {w : Word} {ws : List (Option Word)} (h : View R m a s)
    (hstack : a.stack = some w :: ws) : load s.mem (s.reg .rsp) = w := by
  have hholds := h.holds
  rw [hstack] at hholds
  exact hholds.1 w rfl

/-- A call keeps the view, up to the registers that the convention leaves open. -/
theorem clobber (h : View R m a s) (hR : R.Respected E) (ν : Clobber) :
    View R m { a with
        reg := fun r => if r.calleeSaved then a.reg r else ν.reg r
        rflags := ν.rflags } (s.clobber E ν) := by
  have hsmall := R.small
  have hfits := h.fits
  have hkeeps : ∀ x, R.kept x ∨ Span (s.reg .rsp) (8 * a.stack.length) x →
      (s.clobber E ν).mem x = s.mem x := by
    intro x hx
    rw [h.rsp, Shadow.sp] at hx
    have hk := hR _ h.fits x hx
    rw [State.clobber, h.rsp, Shadow.sp]
    simp [hk]
  refine ⟨h.fits, h.rsp, ?_, fun x hx => (hkeeps x (.inl hx)).trans (h.kept x hx), fun r hr => ?_,
    rfl, h.fs, h.gs, h.uif, h.world⟩
  · exact Holds.congr (show 8 * a.stack.length ≤ 2 ^ 64 by omega)
      (fun x hx => (hkeeps x (.inr hx)).symm) h.holds
  · simp only [State.clobber, h.reg r hr]

/-- The words of the stack, by their index. -/
theorem word {w : Word} {k : ℕ} (h : View R m a s) (hk : a.stack[k]? = some (some w)) :
    load s.mem (s.reg .rsp + BitVec.ofNat 64 (8 * k)) = w :=
  h.holds.get hk

/-- An instruction does on the bytes what it does on the list. -/
theorem exec (h : View R m a s) (hR : R.Respected E)
    (hsilent : ∀ f, silent f = true → ∀ w t, E.call f w t = t) {i : Instr η κ}
    (hi : a.exec E ν R.base silent i = some a') (hfits : a.stack.length < R.size) :
    View R m a' (exec E ν i s) := by
  cases i with
  | endbr64 => cases hi; exact h
  | cld =>
    cases hi
    rw [X86.exec, h.rflags]
    exact h.flags _
  | clui | stui =>
    cases hi
    exact ⟨h.fits, h.rsp, h.holds, h.kept, h.reg, h.rflags, h.fs, h.gs, rfl, h.world⟩
  | pushfq =>
    cases hi
    rw [X86.exec, h.rflags]
    exact h.push hfits _
  | popfq =>
    simp only [Shadow.exec] at hi
    split at hi
    · next w ws hstack =>
      cases hi
      rw [X86.exec, h.top hstack]
      exact (h.drop hstack).flags w
    · cases hi
  | push r =>
    cases hi
    rw [X86.exec, h.get r]
    exact h.push hfits _
  | pop r =>
    simp only [Shadow.exec] at hi
    split at hi
    · next w ws hstack =>
      split at hi
      · cases hi
      · next hr =>
        cases hi
        rw [X86.exec, h.top hstack]
        exact (h.drop hstack).set hr w
    · cases hi
  | add n r =>
    cases r with
    -- on the list there is arithmetic on the stack pointer only
    | rsp =>
      simp only [Shadow.exec] at hi
      split at hi
      · next w ws hstack =>
        split at hi
        · next hn =>
          cases hi
          rw [X86.exec, h.rflags, hn, ← h.rsp]
          exact (h.drop hstack).flags _
        · cases hi
      · cases hi
    | _ => cases hi
  | sub n r =>
    cases r with
    | rsp =>
      simp only [Shadow.exec] at hi
      split at hi
      · next hn =>
        cases hi
        rw [X86.exec, h.rflags, hn, ← h.rsp]
        exact (h.lower hfits).flags _
      · cases hi
    | _ => cases hi
  | mov src dst =>
    simp only [Shadow.exec] at hi
    split at hi
    · cases hi
    · next hdst =>
      cases hi
      rw [X86.exec, h.get src]
      exact h.set hdst _
  | load d base dst =>
    cases base with
    | rsp =>
      simp only [Shadow.exec] at hi
      split at hi
      · next w hw =>
        split at hi
        · cases hi
        · next hdst =>
          cases hi
          rw [not_or, not_not] at hdst
          -- the displacement is that of a word of the list
          have hd : d = BitVec.ofNat 64 (8 * (d.toNat / 8)) := by
            have hdiv := Nat.div_add_mod d.toNat 8
            rw [hdst.2, Nat.add_zero] at hdiv
            rw [hdiv, BitVec.ofNat_toNat, BitVec.setWidth_eq]
          have hword := h.word hw
          rw [← hd] at hword
          rw [X86.exec, hword]
          exact h.set hdst.1 w
      · cases hi
    | _ => cases hi
  | lea l dst =>
    simp only [Shadow.exec] at hi
    split at hi
    · cases hi
    · next hdst =>
      cases hi
      exact h.set hdst _
  | cmp src dst =>
    cases hi
    rw [X86.exec, h.rflags, h.get src, h.get dst]
    exact h.flags _
  | call f =>
    simp only [Shadow.exec] at hi
    split at hi
    · next hf =>
      cases hi
      rw [X86.exec, hsilent f hf]
      exact h.clobber hR (ν f)
    · cases hi
  | _ => cases hi

/-- A block does on the bytes what it does on the list. -/
theorem execs (hR : R.Respected E) (hsilent : ∀ f, silent f = true → ∀ w t, E.call f w t = t) :
    ∀ {is : List (Instr η κ)} {a a' : Shadow ω} {s : State ω}, View R m a s →
      a.execs E ν R.base R.size silent is = some a' → View R m a' (execs E ν is s) := by
  intro is
  induction is with
  | nil =>
    intro a a' s h hi
    cases hi
    exact h
  | cons i is ih =>
    intro a a' s h hi
    rw [Shadow.execs] at hi
    split at hi
    · next hfits =>
      obtain ⟨b, hb, hrest⟩ := Option.bind_eq_some_iff.mp hi
      exact ih (h.exec hR hsilent hb hfits) hrest
    · cases hi

/-- A row of registers is pushed. -/
theorem pushes : ∀ {rs : List Reg} {a : Shadow ω} {s : State ω}, View R m a s → .rsp ∉ rs →
    a.stack.length + rs.length ≤ R.size →
    View R m { a with stack := (rs.reverse.map fun r => some (a.reg r)) ++ a.stack }
      (X86.execs E ν (rs.map .push) s) := by
  intro rs
  induction rs with
  | nil => exact fun h _ _ => h
  | cons r rs ih =>
    intro a s h hrs hfits
    rw [List.mem_cons, not_or] at hrs
    rw [List.length_cons] at hfits
    have hpush : View R m { a with stack := some (a.reg r) :: a.stack }
        (X86.exec E ν (.push r) s) := by
      rw [X86.exec, h.reg r (Ne.symm hrs.1)]
      exact h.push (by omega) _
    have hrest := ih hpush hrs.2 (by rw [List.length_cons]; omega)
    rw [List.reverse_cons, List.map_append, List.append_assoc]
    exact hrest

/-- A row of registers is popped. -/
theorem pops {g : Reg → Word} {ws : List (Option Word)} :
    ∀ {rs : List Reg} {a : Shadow ω} {s : State ω}, View R m a s → .rsp ∉ rs →
    a.stack = (rs.map fun r => some (g r)) ++ ws →
    View R m { a with reg := fun r => if r ∈ rs then g r else a.reg r, stack := ws }
      (X86.execs E ν (rs.map .pop) s) := by
  intro rs
  induction rs with
  | nil =>
    intro a s h _ hstack
    rw [List.map_nil, List.nil_append] at hstack
    subst hstack
    exact h.congr_reg fun r _ => (if_neg (List.not_mem_nil)).symm
  | cons r rs ih =>
    intro a s h hrs hstack
    rw [List.mem_cons, not_or] at hrs
    have hpop : View R m ({ a with stack := (rs.map fun r => some (g r)) ++ ws }.set r (g r))
        (X86.exec E ν (.pop r) s) := by
      rw [X86.exec, h.top hstack]
      exact (h.drop hstack).set (Ne.symm hrs.1) (g r)
    refine (ih hpop hrs.2 rfl).congr_reg fun r' _ => ?_
    by_cases hmem : r' ∈ rs
    · simp [hmem]
    · by_cases heq : r' = r
      · subst heq
        simp [hmem, Shadow.set]
      · simp [hmem, heq, Shadow.set]

/-- A call with an aligned stack. -/
def alignedCall (f : η) : List (Instr η κ) := [.sub 8 .rsp, .cld, .call f, .add 8 .rsp]

theorem call (h : View R m a s) (hR : R.Respected E) {f : η} (hf : ∀ w t, E.call f w t = t)
    (hfits : a.stack.length < R.size) :
    ∃ rflags, View R m { a with
        reg := fun r => if r.calleeSaved then a.reg r else (ν f).reg r
        rflags := rflags } (X86.execs E ν (alignedCall f) s) := by
  have hsub : View R m _ (X86.exec E ν (.sub 8 .rsp) s) := (h.lower hfits).flags _
  have hcld : View R m _ (X86.exec E ν .cld (X86.exec E ν (.sub 8 .rsp) s)) := hsub.flags _
  have hcall := hcld.clobber hR (ν f)
  rw [← hf (State.reg _ .rdi) (State.clobber E (ν f) _)] at hcall
  exact ⟨_, (hcall.drop rfl).flags _⟩

/-- A call between whose ends the registers `rs` are saved. -/
theorem savedCall (h : View R m a s) (hR : R.Respected E) {f : η} (hf : ∀ w t, E.call f w t = t)
    {rs : List Reg} (hrs : .rsp ∉ rs) (hfits : a.stack.length + rs.length < R.size) :
    ∃ rflags, View R m { a with
        reg := fun r => if r ∈ rs ∨ r.calleeSaved then a.reg r else (ν f).reg r
        rflags := rflags }
      (X86.execs E ν (rs.map .push ++ alignedCall f ++ rs.reverse.map .pop) s) := by
  have hpush := h.pushes (E := E) (ν := ν) hrs (by omega)
  obtain ⟨rflags, hcall⟩ := hpush.call (ν := ν) hR hf (by simpa [Nat.add_comm] using hfits)
  have hpop := hcall.pops (E := E) (ν := ν) (g := a.reg) (mt List.mem_reverse.mp hrs) rfl
  refine ⟨rflags, ?_⟩
  rw [X86.execs_append, X86.execs_append]
  refine hpop.congr_reg fun r _ => ?_
  by_cases hmem : r ∈ rs
  · simp [hmem]
  · simp [hmem]

/-- After the delivery of an interrupt, its frame is on the stack. -/
theorem deliver (hbase : s.reg .rsp - 128 = R.base) (hsize : 4 ≤ R.size) (handler vector : Word) :
    View R s.mem
      { s.shadow [some vector, some s.rip, some s.rflags, some (s.reg .rsp)] with uif := false }
      (deliver handler vector s) := by
  have h0 : View R s.mem (s.shadow []) (s.set .rsp (s.reg .rsp - 128)) := by
    have h := of_base (R := R) (s := s.set .rsp (s.reg .rsp - 128)) (by simpa using hbase)
    exact ⟨h.fits, h.rsp, h.holds, h.kept, fun r hr => s.reg_set_of_ne _ hr, rfl, rfl, rfl, rfl,
      rfl⟩
  have h4 := (((h0.push (by simpa [State.shadow] using by omega) (s.reg .rsp)).push
    (by simpa [State.shadow] using by omega) s.rflags).push
    (by simpa [State.shadow] using by omega) s.rip).push
    (by simpa [State.shadow] using by omega) vector
  exact ⟨h4.fits, h4.rsp, h4.holds, h4.kept, h4.reg, h4.rflags, h4.fs, h4.gs, rfl, h4.world⟩

/-- `uiret` leaves through the frame on the stack. -/
theorem uiret {ip f sp : Word} {ws : List (Option Word)} (h : View R m a s)
    (hstack : a.stack = some ip :: some f :: some sp :: ws) :
    X86.exec E ν .uiret s =
      ⟨Function.update a.reg .rsp sp, ip, f, a.fs, a.gs, true, s.mem, a.world⟩ := by
  have hip := h.top hstack
  have hf := h.word (k := 1) (w := f) (by rw [hstack]; rfl)
  have hsp := h.word (k := 2) (w := sp) (by rw [hstack]; rfl)
  have hreg : (s.set .rsp sp).reg = Function.update a.reg .rsp sp := by
    funext r
    by_cases hr : r = .rsp
    · subst hr
      simp
    · rw [s.reg_set_of_ne sp hr, Function.update_of_ne hr, h.reg r hr]
  change load s.mem (s.reg .rsp + 8) = f at hf
  change load s.mem (s.reg .rsp + 16) = sp at hsp
  rw [X86.exec, hip, hf, hsp, ← hreg, ← h.fs, ← h.gs, ← h.world]
  rfl

end View

end X86
