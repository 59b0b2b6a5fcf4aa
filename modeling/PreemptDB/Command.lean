/-
Commands that run under interference, and triples that watch every step.

A thread runs a `Cmd` over state of its own and shared state.  Primitives and
tests are atomic; between two of them other threads may put anything into the
shared state, but the thread's own state is written by the thread alone.  All
nondeterminism of the thread itself is resolved by a number handed to the step,
so `Cmd.step` is a function.

* `Triple M A I P c Q` — from own states in `P`, every state that `c` passes
  through is in `I`, and `c` ends in `Q`, as long as each primitive and test
  meets the assumption `A` when it is reached;
* one rule for each command, `Triple.mono`, `Triple.assume` and `Triple.and`;
* `Keeps` — a triple with the same condition at both ends, whose rules have no
  side conditions;
* `Within` — what a triple promises of the rest of a run, and `Within.step`,
  which carries it along.
-/
import Mathlib.Tactic

namespace Command

/-- Commands over the primitives `α` and the tests `β`. -/
inductive Cmd (α β : Type*)
  | skip
  | prim (a : α)
  | seq (c d : Cmd α β)
  | ite (b : β) (c d : Cmd α β)
  | loop (b : β) (c : Cmd α β)
  /-- continue with `f i`, for the number `i` handed to the step -/
  | pick (f : ℕ → Cmd α β)
  /-- run `c` any number of times -/
  | star (c : Cmd α β)

/-- What primitives and tests do to the own state `τ` and the shared state `ς`.
A primitive that returns `none` waits or stops the program. -/
structure Machine (α β τ ς : Type*) where
  exec : α → τ → ς → Option (τ × ς)
  test : β → τ → ς → Bool

variable {α β τ ς : Type*}

/-- The command is `skip`. -/
def Cmd.isSkip : Cmd α β → Bool
  | skip => true
  | _ => false

/-- One atomic step; `i` resolves the choice of `pick` and `star`. -/
def Cmd.step (M : Machine α β τ ς) : Cmd α β → ℕ → τ → ς → Option (Cmd α β × τ × ς)
  | .skip, _, _, _ => none
  | .prim a, _, t, g => (M.exec a t g).map fun r => (.skip, r)
  | .seq c d, i, t, g =>
    if c.isSkip then some (d, t, g) else (c.step M i t g).map fun r => (.seq r.1 d, r.2)
  | .ite b c d, _, t, g => some (if M.test b t g then c else d, t, g)
  | .loop b c, _, t, g => some (if M.test b t g then .seq c (.loop b c) else .skip, t, g)
  | .pick f, i, t, g => some (f i, t, g)
  | .star c, i, t, g => some (if i = 0 then .skip else .seq c (.star c), t, g)

/-- The primitive or test that the next step performs, if it performs one. -/
def Cmd.head : Cmd α β → Option (α ⊕ β)
  | .prim a => some (.inl a)
  | .seq c _ => c.head
  | .ite b _ _ => some (.inr b)
  | .loop b _ => some (.inr b)
  | _ => none

/-- The next step performs nothing, or something that meets `A`. -/
def Cmd.Meets (A : α ⊕ β → τ → ς → Prop) (c : Cmd α β) (t : τ) (g : ς) : Prop :=
  ∀ h ∈ c.head, A h t g

instance {A : α ⊕ β → τ → ς → Prop} [∀ h t g, Decidable (A h t g)] (c : Cmd α β) (t : τ) (g : ς) :
    Decidable (c.Meets A t g) :=
  match hc : c.head with
  | none => isTrue (by simp [Cmd.Meets, hc])
  | some h => decidable_of_iff (A h t g) (by simp [Cmd.Meets, hc])

/-- The commands of a list, one after the other. -/
def Cmd.block : List (Cmd α β) → Cmd α β
  | [] => .skip
  | [c] => c
  | c :: cs => .seq c (block cs)

theorem Cmd.isSkip_iff {c : Cmd α β} : c.isSkip = true ↔ c = .skip := by
  cases c <;> simp [isSkip]

section Triples

variable (M : Machine α β τ ς) (A : α ⊕ β → τ → ς → Prop) (I : τ → Prop)

/-- For `n` steps from own state `t` the command stays in `I`, whatever the
shared state is at each of them, and if it ends by then it ends in `Q`. -/
def Safe (Q : τ → Prop) : ℕ → Cmd α β → τ → Prop
  | 0, _, _ => True
  | n + 1, c, t => I t ∧ (c = .skip → Q t) ∧
      ∀ i g c' t' g', c.Meets A t g → c.step M i t g = some (c', t', g') → Safe Q n c' t'

/-- Started in `P`, the command stays in `I` and ends in `Q`. -/
def Triple (P : τ → Prop) (c : Cmd α β) (Q : τ → Prop) : Prop :=
  ∀ n t, P t → Safe M A I Q n c t

/-- The rest of a run stays in `I`. -/
def Within (c : Cmd α β) (t : τ) : Prop := ∀ n, Safe M A I (fun _ => True) n c t

end Triples

variable {M : Machine α β τ ς} {A A' : α ⊕ β → τ → ς → Prop} {I I' : τ → Prop}
  {P P' Q Q' R : τ → Prop} {c d : Cmd α β}

theorem Safe.mono (hA : ∀ h t g, A' h t g → A h t g) (hI : ∀ t, I t → I' t)
    (hQ : ∀ t, Q t → Q' t) :
    ∀ {n c t}, Safe M A I Q n c t → Safe M A' I' Q' n c t := by
  intro n
  induction n with
  | zero => exact fun _ => trivial
  | succ n ih =>
    intro c t h
    refine ⟨hI t h.1, fun hc => hQ t (h.2.1 hc), fun i g c' t' g' hm hs => ?_⟩
    exact ih (h.2.2 i g c' t' g' (fun a ha => hA a t g (hm a ha)) hs)

theorem Safe.and : ∀ {n c t}, Safe M A I Q n c t → Safe M A I' Q' n c t →
    Safe M A (fun t => I t ∧ I' t) (fun t => Q t ∧ Q' t) n c t := by
  intro n
  induction n with
  | zero => exact fun _ _ => trivial
  | succ n ih =>
    intro c t h h'
    refine ⟨⟨h.1, h'.1⟩, fun hc => ⟨h.2.1 hc, h'.2.1 hc⟩, fun i g c' t' g' hm hs => ?_⟩
    exact ih (h.2.2 i g c' t' g' hm hs) (h'.2.2 i g c' t' g' hm hs)

/-- Weaken the assumption on the steps, the invariant, and both ends. -/
theorem Triple.mono (h : Triple M A I P c Q) (hA : ∀ h t g, A' h t g → A h t g)
    (hI : ∀ t, I t → I' t) (hP : ∀ t, P' t → P t) (hQ : ∀ t, Q t → Q' t) :
    Triple M A' I' P' c Q' :=
  fun n t ht => (h n t (hP t ht)).mono hA hI hQ

theorem Triple.pre (h : Triple M A I P c Q) (hP : ∀ t, P' t → P t) : Triple M A I P' c Q :=
  h.mono (fun _ _ _ => id) (fun _ => id) hP fun _ => id

theorem Triple.post (h : Triple M A I P c Q) (hQ : ∀ t, Q t → Q' t) : Triple M A I P c Q' :=
  h.mono (fun _ _ _ => id) (fun _ => id) (fun _ => id) hQ

/-- What needs no assumption on the steps holds under any. -/
theorem Triple.assume (A : α ⊕ β → τ → ς → Prop) (h : Triple M (fun _ _ _ => True) I P c Q) :
    Triple M A I P c Q :=
  h.mono (fun _ _ _ _ => trivial) (fun _ => id) (fun _ => id) fun _ => id

theorem Triple.and (h : Triple M A I P c Q) (h' : Triple M A I' P' c Q') :
    Triple M A (fun t => I t ∧ I' t) (fun t => P t ∧ P' t) c (fun t => Q t ∧ Q' t) :=
  fun n t ht => (h n t ht.1).and (h' n t ht.2)

/-- The precondition may have a parameter. -/
theorem Triple.exists_pre {ι : Sort*} {P : ι → τ → Prop} (h : ∀ x, Triple M A I (P x) c Q) :
    Triple M A I (fun t => ∃ x, P x t) c Q :=
  fun n t ht => ht.elim fun x hx => h x n t hx

theorem Triple.skip (hI : ∀ t, P t → I t) : Triple M A I P .skip P := by
  intro n t ht
  cases n with
  | zero => trivial
  | succ n => exact ⟨hI t ht, fun _ => ht, nofun⟩

/-- A primitive is one step. -/
theorem Triple.prim {a : α} (hP : ∀ t, P t → I t) (hQ : ∀ t, Q t → I t)
    (h : ∀ t g t' g', P t → A (.inl a) t g → M.exec a t g = some (t', g') → Q t') :
    Triple M A I P (.prim a) Q := by
  intro n t ht
  cases n with
  | zero => trivial
  | succ n =>
    refine ⟨hP t ht, nofun, fun i g c' t' g' hm hs => ?_⟩
    obtain ⟨r, hr, he⟩ := Option.map_eq_some_iff.mp hs
    cases he
    exact Triple.skip hQ n t' (h t g t' g' ht (hm _ rfl) hr)

/-- Control passes from `c` to `d` in a step of its own, so `d` has fewer left. -/
theorem Safe.seq : ∀ {n c t}, (∀ m < n, ∀ t, R t → Safe M A I Q m d t) →
    Safe M A I R n c t → Safe M A I Q n (.seq c d) t := by
  intro n
  induction n with
  | zero => exact fun _ _ => trivial
  | succ n ih =>
    intro c t hd hc
    refine ⟨hc.1, nofun, fun i g c' t' g' hm hs => ?_⟩
    rw [Cmd.step] at hs
    split at hs
    · next hskip =>
      cases hs
      exact hd n (Nat.lt_succ_self n) t (hc.2.1 (Cmd.isSkip_iff.mp hskip))
    · obtain ⟨⟨c₁, _, _⟩, hr, he⟩ := Option.map_eq_some_iff.mp hs
      cases he
      exact ih (fun m hlt => hd m (Nat.lt_succ_of_lt hlt)) (hc.2.2 i g c₁ t' g' hm hr)

theorem Triple.seq (hc : Triple M A I P c R) (hd : Triple M A I R d Q) :
    Triple M A I P (.seq c d) Q :=
  fun n t ht => (hc n t ht).seq fun m _ => hd m

/-- A branch may use that its test was met by some shared state. -/
theorem Triple.ite {b : β} (hI : ∀ t, P t → I t)
    (hc : Triple M A I (fun t => P t ∧ ∃ g, A (.inr b) t g ∧ M.test b t g = true) c Q)
    (hd : Triple M A I (fun t => P t ∧ ∃ g, A (.inr b) t g ∧ M.test b t g = false) d Q) :
    Triple M A I P (.ite b c d) Q := by
  intro n t ht
  cases n with
  | zero => trivial
  | succ n =>
    refine ⟨hI t ht, nofun, fun i g c' t' g' hm hs => ?_⟩
    cases hs
    cases hb : M.test b t g with
    | true => exact hc n t ⟨ht, g, hm _ rfl, hb⟩
    | false => exact hd n t ⟨ht, g, hm _ rfl, hb⟩

theorem Triple.pick {f : ℕ → Cmd α β} (hI : ∀ t, P t → I t)
    (h : ∀ i, Triple M A I P (f i) Q) : Triple M A I P (.pick f) Q := by
  intro n t ht
  cases n with
  | zero => trivial
  | succ n =>
    refine ⟨hI t ht, nofun, fun i g c' t' g' _ hs => ?_⟩
    cases hs
    exact h i n t ht

/-- The body keeps `P`, so any number of its runs does. -/
theorem Triple.star (hI : ∀ t, P t → I t) (h : Triple M A I P c P) :
    Triple M A I P (.star c) P := by
  -- the iterations still to come have fewer steps left
  intro n
  induction n using Nat.strong_induction_on with
  | _ n ih =>
    intro t ht
    cases n with
    | zero => trivial
    | succ n =>
      refine ⟨hI t ht, nofun, fun i g c' t' g' _ hs => ?_⟩
      cases hs
      split
      · exact Triple.skip hI n t ht
      · exact (h n t ht).seq fun m hlt => ih m (by omega)

/-- The rule for `while`: on leaving, the test has failed. -/
theorem Triple.loop {b : β} (hI : ∀ t, P t → I t)
    (h : Triple M A I (fun t => P t ∧ ∃ g, A (.inr b) t g ∧ M.test b t g = true) c P) :
    Triple M A I P (.loop b c)
      (fun t => P t ∧ ∃ g, A (.inr b) t g ∧ M.test b t g = false) := by
  intro n
  induction n using Nat.strong_induction_on with
  | _ n ih =>
    intro t ht
    cases n with
    | zero => trivial
    | succ n =>
      refine ⟨hI t ht, nofun, fun i g c' t' g' hm hs => ?_⟩
      cases hs
      cases hb : M.test b t g with
      | true => exact (h n t ⟨ht, g, hm _ rfl, hb⟩).seq fun m hlt => ih m (by omega)
      | false =>
        exact Triple.skip (fun t h => hI t h.1) n t ⟨ht, g, hm _ rfl, hb⟩

/-- `c` keeps `P`, and stays in `I` meanwhile. -/
structure Keeps (M : Machine α β τ ς) (A : α ⊕ β → τ → ς → Prop) (I P : τ → Prop)
    (c : Cmd α β) : Prop where
  inv : ∀ t, P t → I t
  triple : Triple M A I P c P

namespace Keeps

theorem skip (hI : ∀ t, P t → I t) : Keeps M A I P .skip := ⟨hI, Triple.skip hI⟩

theorem prim {a : α} (hI : ∀ t, P t → I t)
    (h : ∀ t g t' g', P t → A (.inl a) t g → M.exec a t g = some (t', g') → P t') :
    Keeps M A I P (.prim a) :=
  ⟨hI, Triple.prim hI hI h⟩

theorem seq (hc : Keeps M A I P c) (hd : Keeps M A I P d) : Keeps M A I P (.seq c d) :=
  ⟨hc.inv, hc.triple.seq hd.triple⟩

theorem ite {b : β} (hc : Keeps M A I P c) (hd : Keeps M A I P d) : Keeps M A I P (.ite b c d) :=
  ⟨hc.inv, Triple.ite hc.inv (hc.triple.pre fun _ => And.left) (hd.triple.pre fun _ => And.left)⟩

theorem loop {b : β} (hc : Keeps M A I P c) : Keeps M A I P (.loop b c) :=
  ⟨hc.inv, (Triple.loop hc.inv (hc.triple.pre fun _ => And.left)).post fun _ => And.left⟩

theorem pick {f : ℕ → Cmd α β} (h : ∀ i, Keeps M A I P (f i)) : Keeps M A I P (.pick f) :=
  ⟨(h 0).inv, Triple.pick (h 0).inv fun i => (h i).triple⟩

theorem star (hc : Keeps M A I P c) : Keeps M A I P (.star c) :=
  ⟨hc.inv, Triple.star hc.inv hc.triple⟩

/-- What every primitive keeps, every command keeps. -/
theorem of_exec (hI : ∀ t, P t → I t)
    (h : ∀ a t g t' g', P t → A (.inl a) t g → M.exec a t g = some (t', g') → P t') :
    ∀ c : Cmd α β, Keeps M A I P c := by
  intro c
  induction c with
  | skip => exact skip hI
  | prim a => exact prim hI (h a)
  | seq c d ihc ihd => exact ihc.seq ihd
  | ite b c d ihc ihd => exact ihc.ite ihd
  | loop b c ih => exact ih.loop
  | pick f ih => exact pick ih
  | star c ih => exact ih.star

end Keeps

theorem Triple.within {t : τ} (h : Triple M A I P c Q) (ht : P t) : Within M A I c t :=
  fun n => (h n t ht).mono (fun _ _ _ => id) (fun _ => id) fun _ _ => trivial

theorem Within.inv {t : τ} (h : Within M A I c t) : I t := (h 1).1

/-- The promise survives a step of the thread; steps of others do not touch it. -/
theorem Within.step {i : ℕ} {c' : Cmd α β} {t t' : τ} {g g' : ς} (h : Within M A I c t)
    (hm : c.Meets A t g) (hs : c.step M i t g = some (c', t', g')) : Within M A I c' t' :=
  fun n => (h (n + 1)).2.2 i g c' t' g' hm hs

end Command
