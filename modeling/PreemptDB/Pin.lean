/-
Pinning an object (`Object::Pin` and `Object::SyncPin`, `dbcore/sm-object.cpp`).

An object whose payload is in the log is loaded by the caller that moves its
status from `kStatusStorage` to `kStatusLoading`; the others wait.  A step is one
access to the status, or one store of the copy.  The two functions differ only in
what a waiting caller does meanwhile.

A tuple of size 0 is a deleted version, and its loader stores `kStatusDeleted`.
Both waiting loops wait for `kStatusMemory`, and a caller whose compare-and-swap
returns `kStatusDeleted` goes on to load (the assertion there is a debug one).

* `PinState.step` — the callers;
* `PinInv` — who loads, and where the others can be;
* `pin_ends_iff` — everything is as it should be unless the tuple is empty.
-/
import PreemptDB.StepRun

namespace PreemptDB

open Function StepRun

/-- `status_` -/
inductive ObjectStatus
  | memory
  | storage
  | loading
  | deleted
  deriving DecidableEq, Repr

/-- Where a caller of `Pin` or `SyncPin` is. -/
inductive PinPc
  /-- before the first load of the status -/
  | entry
  /-- in the first waiting loop -/
  | waitLoading
  /-- at the first and at the second load of `ALWAYS_ASSERT` -/
  | assertMemory
  | assertDeleted
  /-- before the compare-and-swap -/
  | compareAndSwap
  /-- in the second waiting loop -/
  | waitSwapped
  /-- in `LoadFromStorage`: the header is reset, then the tuple is copied -/
  | resetHeader
  | copyHeader
  | copyByte (j : ℕ)
  /-- before the last store to the status -/
  | setStatus
  | returned
  /-- an assertion has failed -/
  | failed
  deriving DecidableEq, Repr

/-- The object, with the size and the bytes of its payload, and its callers.
`loaders` are those that have begun to load. -/
structure PinState (ι : Type*) where
  status : ObjectStatus
  size : Option ℕ
  bytes : ℕ → Option UInt8
  pc : ι → PinPc
  loaders : List ι

namespace PinState

variable {ι : Type*}

/-- The object is in storage. -/
def init : PinState ι where
  status := .storage
  size := none
  bytes _ := none
  pc _ := .entry
  loaders := []

variable [DecidableEq ι]

def goto (s : PinState ι) (t : ι) (pc : PinPc) : PinState ι :=
  { s with pc := Function.update s.pc t pc }

/-- One step of caller `t`; the record in the log holds the tuple `value`.  A
waiting caller has no step while its condition is false. -/
def step (value : List UInt8) (s : PinState ι) (t : ι) : Option (PinState ι) :=
  match s.pc t with
  | .entry =>
    match s.status with
    | .storage => some (s.goto t .compareAndSwap)
    | .loading => some (s.goto t .waitLoading)
    | _ => some (s.goto t .assertMemory)
  | .waitLoading | .waitSwapped =>
    if s.status = .memory then some (s.goto t .returned) else none
  | .assertMemory =>
    if s.status = .memory then some (s.goto t .returned) else some (s.goto t .assertDeleted)
  | .assertDeleted =>
    if s.status = .deleted then some (s.goto t .returned) else some (s.goto t .failed)
  | .compareAndSwap =>
    match s.status with
    | .memory => some (s.goto t .returned)
    | .loading => some (s.goto t .waitSwapped)
    | .storage =>
      some { s.goto t .resetHeader with status := .loading, loaders := s.loaders ++ [t] }
    | .deleted => some { s.goto t .resetHeader with loaders := s.loaders ++ [t] }
  | .resetHeader => some { s.goto t .copyHeader with size := some 0 }
  | .copyHeader => some { s.goto t (.copyByte 0) with size := some value.length }
  | .copyByte j =>
    match value[j]? with
    | some b => some { s.goto t (.copyByte (j + 1)) with
        bytes := Function.update s.bytes j (some b) }
    | none => some (s.goto t .setStatus)
  | .setStatus =>
    some { s.goto t .returned with status := if s.size = some 0 then .deleted else .memory }
  | .returned | .failed => none

/-- The payload is complete. -/
def Complete (value : List UInt8) (s : PinState ι) : Prop :=
  s.size = some value.length ∧ ∀ j b, value[j]? = some b → s.bytes j = some b

/-- Caller `t` waits for `kStatusMemory`. -/
def Waits (s : PinState ι) (t : ι) : Prop := s.pc t = .waitLoading ∨ s.pc t = .waitSwapped

/-- What pinning promises in a state: one caller loads, the payload is complete
when the status says so, nobody waits in vain once the loader has returned, and no
assertion fails. -/
structure Sound (value : List UInt8) (s : PinState ι) : Prop where
  once : s.loaders.length ≤ 1
  loaded : s.status = .memory ∨ s.status = .deleted →
    s.loaders.length = 1 ∧ s.Complete value ∧ ∀ t, s.Waits t → s.status = .memory
  asserts : ∀ t, s.pc t ≠ .failed

end PinState

/-! ### Tuples that are not empty -/

namespace PinPc

/-- Places before anything has happened. -/
def early : PinPc → Bool
  | entry | compareAndSwap => true
  | _ => false

/-- Places of a caller that does not load, while another one does. -/
def waiting : PinPc → Bool
  | entry | compareAndSwap | waitLoading | waitSwapped => true
  | _ => false

/-- Places of a caller when the tuple is in memory. -/
def settled : PinPc → Bool
  | entry | compareAndSwap | waitLoading | waitSwapped | assertMemory | returned => true
  | _ => false

end PinPc

section

variable {ι : Type*} [DecidableEq ι] {value : List UInt8} {s s' : PinState ι}

/-- How far the loader has come. -/
def PinState.Loading (value : List UInt8) (s : PinState ι) : PinPc → Prop
  | .resetHeader | .copyHeader => True
  | .copyByte k => s.size = some value.length ∧
      ∀ j b, j < k → value[j]? = some b → s.bytes j = some b
  | .setStatus => s.Complete value
  | _ => False

/-- Where the callers are, for each status. -/
def PinInv (value : List UInt8) (s : PinState ι) : Prop :=
  match s.status with
  | .storage => s.loaders = [] ∧ ∀ t, (s.pc t).early
  | .loading => ∃ l, s.loaders = [l] ∧ s.Loading value (s.pc l) ∧ ∀ t, t ≠ l → (s.pc t).waiting
  | .memory => (∃ l, s.loaders = [l]) ∧ s.Complete value ∧ ∀ t, (s.pc t).settled
  | .deleted => False

namespace PinInv

omit [DecidableEq ι] in
theorem init : PinInv value (PinState.init : PinState ι) := ⟨rfl, fun _ => rfl⟩

/-- One caller moves, within the places it can be in. -/
theorem forall_goto {P : PinPc → Bool} (h : ∀ u, P (s.pc u)) {t : ι} {pc : PinPc} (hpc : P pc) :
    ∀ u, P (Function.update s.pc t pc u) := by
  intro u
  rw [update_apply]
  split
  · exact hpc
  · exact h u

theorem waiting_of_early {pc : PinPc} (h : pc.early) : pc.waiting := by
  cases pc <;> first | rfl | cases h

theorem settled_of_waiting {pc : PinPc} (h : pc.waiting) : pc.settled := by
  cases pc <;> first | rfl | cases h

/-- A caller moves while the object is in storage. -/
theorem step_storage (hst : s.status = .storage) (h : PinInv value s) {t : ι}
    (hs : s.step value t = some s') : PinInv value s' := by
  rw [PinInv, hst] at h
  obtain ⟨hl, hpc⟩ := h
  have ht := hpc t
  rw [PinState.step] at hs
  split at hs <;> rename_i hp <;> rw [hp] at ht <;> try cases ht
  -- it has seen the status, or it swaps it and begins to load
  · rw [hst] at hs
    cases hs
    simp only [PinInv, PinState.goto, hst]
    exact ⟨hl, forall_goto (P := PinPc.early) hpc rfl⟩
  · rw [hst] at hs
    cases hs
    refine ⟨t, by simp [hl], ?_, fun u hu => ?_⟩
    · simp [PinState.goto, PinState.Loading]
    · show (Function.update s.pc t _ u).waiting
      rw [update_of_ne hu]
      exact waiting_of_early (hpc u)

/-- The loader moves. -/
theorem step_loader (hne : value ≠ []) {l : ι} (hst : s.status = .loading)
    (hl : s.loaders = [l]) (hload : s.Loading value (s.pc l))
    (hpc : ∀ t, t ≠ l → (s.pc t).waiting) (hs : s.step value l = some s') : PinInv value s' := by
  have hothers : ∀ pc t, t ≠ l → (Function.update s.pc l pc t).waiting := by
    intro pc t ht
    rw [update_of_ne ht]
    exact hpc t ht
  -- the copy goes on
  have next : ∀ {pc : PinPc} {m : PinState ι}, m.status = .loading → m.loaders = [l] →
      m.pc = Function.update s.pc l pc → m.Loading value pc → PinInv value m := by
    intro pc m hst hl hm hload
    rw [PinInv, hst]
    refine ⟨l, hl, ?_, ?_⟩
    · rw [hm, update_self]
      exact hload
    · rw [hm]
      exact hothers pc
  rw [PinState.step] at hs
  split at hs <;> rename_i hp <;> rw [hp] at hload
  case h_7 =>
    cases hs
    exact next hst hl rfl trivial
  case h_8 =>
    cases hs
    exact next hst hl rfl ⟨rfl, fun j b hj => absurd hj (Nat.not_lt_zero j)⟩
  case h_9 j =>
    obtain ⟨hsize, hbytes⟩ := hload
    split at hs
    next b hb =>
      cases hs
      refine next hst hl rfl ⟨hsize, fun i c hi hc => ?_⟩
      show Function.update s.bytes j (some b) i = some c
      rw [update_apply]
      split
      next hij => rw [← hb, ← hc, hij]
      next hij => exact hbytes i c (by omega) hc
    next hb =>
      cases hs
      refine next hst hl rfl ⟨hsize, fun i c hc => hbytes i c ?_ hc⟩
      have := (List.getElem?_eq_some_iff.mp hc).1
      have := List.getElem?_eq_none_iff.mp hb
      omega
  case h_10 =>
    cases hs
    have hsize : s.size ≠ some 0 := by
      rw [hload.1]
      exact fun heq => hne (List.length_eq_zero_iff.mp (Option.some_inj.mp heq))
    simp only [PinInv, if_neg hsize]
    refine ⟨⟨l, hl⟩, hload, fun t => ?_⟩
    by_cases ht : t = l
    · show (Function.update s.pc l _ t).settled
      rw [ht, update_self]
      rfl
    · exact settled_of_waiting (hothers _ t ht)
  all_goals exact hload.elim

/-- Another caller moves while the object is loaded. -/
theorem step_other {l t : ι} (hst : s.status = .loading) (hl : s.loaders = [l])
    (hload : s.Loading value (s.pc l)) (hpc : ∀ t, t ≠ l → (s.pc t).waiting) (ht : t ≠ l)
    (hs : s.step value t = some s') : PinInv value s' := by
  have hwait := hpc t ht
  have next : ∀ {pc : PinPc}, pc.waiting → PinInv value (s.goto t pc) := by
    intro pc hw
    simp only [PinInv, PinState.goto, hst]
    refine ⟨l, hl, ?_, fun u hu => ?_⟩
    · rw [update_of_ne (Ne.symm ht)]
      revert hload
      cases s.pc l <;> exact id
    · rw [update_apply]
      split
      · exact hw
      · exact hpc u hu
  rw [PinState.step] at hs
  split at hs <;> rename_i hp <;> rw [hp] at hwait <;> try cases hwait
  · rw [hst] at hs
    cases hs
    exact next rfl
  · rw [hst] at hs
    cases hs
  · rw [hst] at hs
    cases hs
  · rw [hst] at hs
    cases hs
    exact next rfl

/-- A caller moves when the tuple is in memory. -/
theorem step_memory (hst : s.status = .memory) (h : PinInv value s) {t : ι}
    (hs : s.step value t = some s') : PinInv value s' := by
  rw [PinInv, hst] at h
  obtain ⟨hl, hcomplete, hpc⟩ := h
  have hset := hpc t
  have next : ∀ {pc : PinPc}, pc.settled → PinInv value (s.goto t pc) := by
    intro pc hw
    simp only [PinInv, PinState.goto, hst]
    exact ⟨hl, hcomplete, forall_goto (P := PinPc.settled) hpc hw⟩
  rw [PinState.step] at hs
  split at hs <;> rename_i hp <;> rw [hp] at hset <;> try cases hset
  case h_11 => cases hs
  all_goals
    simp only [hst, if_true] at hs
    cases hs
    exact next rfl

theorem step (hne : value ≠ []) (h : PinInv value s) {t : ι} (hs : s.step value t = some s') :
    PinInv value s' := by
  match hst : s.status with
  | .storage => exact step_storage hst h hs
  | .memory => exact step_memory hst h hs
  | .deleted =>
    rw [PinInv, hst] at h
    exact h.elim
  | .loading =>
    rw [PinInv, hst] at h
    obtain ⟨l, hl, hload, hpc⟩ := h
    by_cases ht : t = l
    · subst ht
      exact step_loader hne hst hl hload hpc hs
    · exact step_other hst hl hload hpc ht hs

omit [DecidableEq ι] in
/-- The invariant is what pinning promises. -/
theorem sound (h : PinInv value s) : s.Sound value := by
  rw [PinInv] at h
  split at h
  next hst =>
    refine ⟨by rw [h.1]; exact Nat.zero_le _, fun hfin => ?_, fun t ht => ?_⟩
    · rw [hst] at hfin
      rcases hfin with hfin | hfin <;> cases hfin
    · have := h.2 t
      rw [ht] at this
      cases this
  next hst =>
    obtain ⟨l, hl, hload, hpc⟩ := h
    refine ⟨by rw [hl]; rfl, fun hfin => ?_, fun t ht => ?_⟩
    · rw [hst] at hfin
      rcases hfin with hfin | hfin <;> cases hfin
    · by_cases htl : t = l
      · rw [← htl, ht] at hload
        exact hload
      · have := hpc t htl
        rw [ht] at this
        cases this
  next hst =>
    obtain ⟨⟨l, hl⟩, hcomplete, hpc⟩ := h
    refine ⟨by rw [hl]; rfl, fun _ => ⟨by rw [hl]; rfl, hcomplete, fun _ _ => hst⟩, fun t ht => ?_⟩
    have := hpc t
    rw [ht] at this
    cases this
  next => exact h.elim

end PinInv

/-! ### Empty tuples -/

/-- `u` arrives while `t` loads a tuple of size 0, and waits for good. -/
theorem waits_for_deleted {t u : ι} (htu : t ≠ u) :
    ∃ s, run (PinState.step []) .init [t, t, u, t, t, t, t] = some s ∧ s.status = .deleted ∧
      s.Waits u := by
  have hut := Ne.symm htu
  simp [run, PinState.step, PinState.init, PinState.goto, PinState.Waits, htu, hut]

/-- **Pinning.**  With at least two threads, every run of any number of calls on an
object in storage keeps what pinning promises if and only if the tuple in the log
is not empty. -/
theorem pin_ends_iff [Nontrivial ι] (value : List UInt8) :
    (∀ (acts : List ι) (s : PinState ι), run (PinState.step value) .init acts = some s →
      s.Sound value) ↔ value ≠ [] := by
  constructor
  · rintro h rfl
    obtain ⟨t, u, htu⟩ := exists_pair_ne ι
    obtain ⟨s, hr, hst, hw⟩ := waits_for_deleted htu
    have := ((h _ s hr).loaded (.inr hst)).2.2 u hw
    rw [hst] at this
    cases this
  · intro hne acts s hr
    exact (run_invariant (I := PinInv value) (fun hs h => h.step hne hs) hr .init).sound

end

/-- Three callers, one of which loads a tuple of one byte. -/
theorem pin_ends_one_byte :
    ∃ s, run (PinState.step [7]) (.init : PinState (Fin 3))
        [0, 1, 0, 1, 2, 0, 0, 0, 0, 0, 1, 2] = some s ∧
      s.Sound [7] ∧ s.status = .memory ∧ ∀ t, s.pc t = .returned := by
  have hview : (run (PinState.step [7]) (.init : PinState (Fin 3))
      [0, 1, 0, 1, 2, 0, 0, 0, 0, 0, 1, 2]).map (fun s => (s.status, s.pc)) =
        some (.memory, fun _ => .returned) := by decide
  obtain ⟨s, hs, hview⟩ := Option.map_eq_some_iff.mp hview
  obtain ⟨hst, hpc⟩ := Prod.mk.inj hview
  exact ⟨s, hs, (pin_ends_iff [7]).mpr (by decide) _ s hs, hst, fun t => congrFun hpc t⟩

/-- With a tuple of size 0, a caller that came while it was loaded is left waiting
for `kStatusMemory`; and a caller that has seen `kStatusStorage` before loads the
tuple once more. -/
theorem pin_deleted :
    (∃ s, run (PinState.step []) (.init : PinState Bool)
        [true, true, false, true, true, true, true] = some s ∧
      s.pc true = .returned ∧ s.status = .deleted ∧ s.Waits false ∧
      s.step [] false = none) ∧
    ∃ s, run (PinState.step []) (.init : PinState Bool)
        [true, false, true, true, true, true, true, false] = some s ∧
      s.pc true = .returned ∧ s.status = .deleted ∧ s.loaders = [true, false] := by
  constructor
  · refine ⟨_, rfl, ?_, ?_, .inl ?_, ?_⟩ <;> rfl
  · exact ⟨_, rfl, rfl, rfl, rfl⟩

end PreemptDB
