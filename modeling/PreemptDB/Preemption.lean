/-
What a preempted context looks like.

The main context is switched out by a user interrupt that finds the lock counter
at zero, and then stays as it is until it is resumed.  So if the program keeps
`I` at all of its steps, what `I` says of a state with the counter at zero and
interrupts on holds whenever the preemptive context runs.
-/
import PreemptDB.Worker

namespace PreemptDB

open Command StepRun

variable {cfg : WorkerConfig} {A : Op ⊕ Test → Own → Shared → Prop} {I J : Own → Prop}

/-- What the main context is about to do meets `A`. -/
def Worker.Meets (A : Op ⊕ Test → Own → Shared → Prop) (s : Worker) : WorkerAct → Prop
  | .main _ => s.cmd.Meets A s.own s.shared
  | _ => True

instance [∀ h o g, Decidable (A h o g)] : ∀ s a, Decidable (Worker.Meets A s a)
  | s, .main _ => inferInstanceAs (Decidable (s.cmd.Meets A s.own s.shared))
  | _, .others _ => isTrue trivial
  | _, .interrupt => isTrue trivial
  | _, .resume => isTrue trivial

/-- The rest of the program stays in `I`, and a context that is switched out is
in `J`. -/
structure SwitchInv (cfg : WorkerConfig) (A : Op ⊕ Test → Own → Shared → Prop)
    (I J : Own → Prop) (s : Worker) : Prop where
  within : Within (workerMachine cfg) A I s.cmd s.own
  switched : s.current = .preemptive → J s.own

theorem SwitchInv.step (hJ : ∀ o, I o → o.pc.uintr = true → o.pc.lockCounter = 0 → J o)
    {s s' : Worker} {a : WorkerAct} (hok : s.Meets A a) (h : s.step cfg a = some s')
    (hi : SwitchInv cfg A I J s) : SwitchInv cfg A I J s' := by
  cases a with
  | main i =>
    simp only [Worker.step] at h
    split at h
    · next hmain =>
      obtain ⟨⟨c', o', g'⟩, hr, he⟩ := Option.map_eq_some_iff.mp h
      cases he
      exact ⟨hi.within.step hok hr, fun hp => by rw [hmain] at hp; cases hp⟩
    · cases h
  | others a =>
    obtain ⟨g, _, he⟩ := Option.map_eq_some_iff.mp h
    cases he
    exact ⟨hi.within, hi.switched⟩
  | interrupt =>
    simp only [Worker.step] at h
    split at h
    · next hdel =>
      cases h
      refine ⟨hi.within, fun hp => hJ s.own hi.within.inv hdel.2 ?_⟩
      -- a raised counter sends the handler back to the main context
      by_contra hne
      simp only [handlerHelper, if_pos (Nat.pos_of_ne_zero hne)] at hp
      cases hp
    · cases h
  | resume =>
    simp only [Worker.step] at h
    split at h
    · cases h
      exact ⟨hi.within, nofun⟩
    · cases h

/-- From a triple for `MyWork` to the runs of a worker. -/
theorem switched_of_myWork {P Q : Own → Prop} {g : Shared} {acts : List WorkerAct} {s : Worker}
    (hwork : Triple (workerMachine cfg) A I P (myWork cfg) Q)
    (hP : P (Worker.start cfg g).own)
    (hJ : ∀ o, I o → o.pc.uintr = true → o.pc.lockCounter = 0 → J o)
    (hok : Along (Worker.step cfg) (Worker.Meets A) (Worker.start cfg g) acts)
    (hr : run (Worker.step cfg) (Worker.start cfg g) acts = some s) :
    (s.current = .preemptive → J s.own) ∧ I s.own := by
  have hinv := run_invariant_along (I := SwitchInv cfg A I J)
    (fun h hs hi => hi.step hJ h hs) hok hr ⟨hwork.within hP, nofun⟩
  exact ⟨hinv.switched, hinv.within.inv⟩

/-- Surroundings at rest: the thread is registered with `mm_epochs` only. -/
def Shared.quiet : Shared where
  taken := []
  epochs m := ⟨1, 1, true, 0, [], fun _ => ⟨0, 0, false, m = .mm⟩⟩
  widx _ := 0
  nodeVersion _ := 0
  currentCsn := 1
  tlogs := 0

/-- Some steps of the main context. -/
def mainSteps (n : ℕ) : List WorkerAct := List.replicate n (.main 0)

/-- `MyWork` up to the first request, which is taken with interrupts on. -/
def firstRequest : List WorkerAct :=
  mainSteps 24 ++ [.main 1] ++ mainSteps 2 ++ [.main 1, .main 1] ++ mainSteps 2

/-- The constructor, up to where `context_enter` has read `begin`. -/
def enterXidEpoch : List WorkerAct := firstRequest ++ mainSteps 29

end PreemptDB
