/-
Thread exit and the caches of OIDs (`context_init`, `context_fini` and the key destructor
in `sm-oid.cpp`).

Each thread has a `context_data` with a cache for every file it has used.  It is entered in
the map `contexts` and set as the value of a pthread key, whose destructor is to give the
caches back.  The destructor takes its argument for the OID manager and compares it with
`master`; but the value that was set is the address of the `context_data`.

* `OidManager.step` — the calls of the threads on all files, and their exits;
* `OidManager.Touches` — what a call leaves alone;
* `exit_releases_iff` — an exit gives back only what the thread never had.
-/
import PreemptDB.CacheOverrun

namespace PreemptDB

open Function

/-- What a value of the key points to. -/
inductive KeyValue
  | manager
  | context (x : ℕ)
  deriving DecidableEq

/-- The caches of a thread, with their files. -/
abbrev CacheMap := List (ℕ × ThreadCache)

/-- The OID manager and the threads `τ` that use it.  A `context_data` is known by the
number of its allocation. -/
structure OidManager (τ : Type*) where
  files : ℕ → Allocator
  heap : ℕ → CacheMap
  next : ℕ
  cls : τ → Option ℕ
  specific : τ → Option KeyValue
  contexts : ℕ → Option ℕ
  exited : τ → Bool

/-- Calls and exits.  With a call comes whether the table of the thread has no room for
another file, and what an allocation finds in memory. -/
inductive ManagerAct (τ : Type*)
  | allocOid (t : τ) (f : ℕ) (full : Bool) (mem : Memory)
  | freeOid (t : τ) (f : ℕ) (o : ℕ) (full : Bool)
  | exit (t : τ)

/-- The thread that makes a call. -/
def ManagerAct.caller {τ : Type*} : ManagerAct τ → Option τ
  | .allocOid t _ _ _ => some t
  | .freeOid t _ _ _ => some t
  | .exit _ => none

namespace OidManager

variable {τ : Type*} [DecidableEq τ] (tid : τ → ℕ)

/-- A manager with its files, before any thread has used it. -/
def init (files : ℕ → Allocator) : OidManager τ where
  files := files
  heap _ := []
  next := 0
  cls _ := none
  specific _ := none
  contexts _ := none
  exited _ := false

/-- `context_init`; `emplace` does not replace an entry, and `tid` is `pthread_self`. -/
def contextInit (s : OidManager τ) (t : τ) : OidManager τ :=
  { s with
    next := s.next + 1
    heap := Function.update s.heap s.next []
    contexts := if (s.contexts (tid t)).isSome then s.contexts
      else Function.update s.contexts (tid t) (some s.next)
    specific := Function.update s.specific t (some (.context s.next))
    cls := Function.update s.cls t (some s.next) }

/-- The context of the calling thread, made if need be. -/
def enter (s : OidManager τ) (t : τ) : OidManager τ × ℕ :=
  match s.cls t with
  | some x => (s, x)
  | none => (s.contextInit tid t, s.next)

/-- The loop of `context_revoke_caches`. -/
def drainAll (files : ℕ → Allocator) : CacheMap → ℕ → Allocator
  | [] => files
  | (f, tc) :: m => drainAll (Function.update files f ((files f).drainCache tc 0).1) m

omit [DecidableEq τ] in
/-- `context_revoke_caches` -/
def contextRevokeCaches (s : OidManager τ) (x : ℕ) : OidManager τ :=
  { s with files := drainAll s.files (s.heap x), heap := Function.update s.heap x [] }

omit [DecidableEq τ] in
/-- `context_cache` once the context is known.  If the table is full, it is cleared first. -/
def contextCache (s : OidManager τ) (x f : ℕ) (full : Bool) : OidManager τ × ThreadCache :=
  match (s.heap x).lookup f with
  | some tc => (s, tc)
  | none =>
    let s := if full then s.contextRevokeCaches x else s
    ({ s with heap := Function.update s.heap x ((f, ⟨0, fun _ => 0⟩) :: s.heap x) },
      ⟨0, fun _ => 0⟩)

omit [DecidableEq τ] in
/-- The allocator of a file and the cache for it have changed. -/
def store (s : OidManager τ) (x f : ℕ) (a : Allocator) (tc : ThreadCache) : OidManager τ :=
  { s with
    files := Function.update s.files f a
    heap := Function.update s.heap x
      ((s.heap x).map fun e => if e.1 = f then (f, tc) else e) }

/-- `context_fini` -/
def contextFini (s : OidManager τ) (t : τ) : OidManager τ :=
  match s.cls t with
  | some x =>
    { s.contextRevokeCaches x with contexts := Function.update s.contexts (tid t) none }
  | none => s

/-- The destructor of the key, which compares its argument with `master`. -/
def fini (s : OidManager τ) (t : τ) (arg : KeyValue) : OidManager τ :=
  if arg = .manager then s.contextFini tid t else s

/-- A thread exits.  The destructor runs if there is a value, which is reset before. -/
def exit (s : OidManager τ) (t : τ) : OidManager τ :=
  let s := match s.specific t with
    | some arg => fini tid { s with specific := Function.update s.specific t none } t arg
    | none => s
  { s with cls := Function.update s.cls t none, exited := Function.update s.exited t true }

/-- A call that reads or writes outside of a cache has no result. -/
def step (s : OidManager τ) : ManagerAct τ → Option (OidManager τ)
  | .allocOid t f full mem =>
    if s.exited t then none
    else
      let (s, x) := s.enter tid t
      let (s, tc) := s.contextCache x f full
      ((s.files f).contextAllocate mem tc).bind fun r =>
        if r.2.2.isSome then some (s.store x f r.1 r.2.1) else none
  | .freeOid t f o full =>
    if s.exited t then none
    else
      let (s, x) := s.enter tid t
      let (s, tc) := s.contextCache x f full
      let r := (s.files f).contextFree tc o
      if r.2.2 < CACHE_N then some (s.store x f r.1 r.2.1) else none
  | .exit t => if s.exited t then none else some (s.exit tid t)

/-- What an exit of `t` is meant to do: the OIDs that `drain_cache` can absorb are in L1 or
L2 of their file again, and the entry of the thread is gone. -/
def Released (s s' : OidManager τ) (t : τ) : Prop :=
  (∀ x, s.cls t = some x → ∀ e ∈ s.heap x, (s.files e.1).Absorbs e.2.nentries →
    ∀ o ∈ e.2.oids, o ∈ (s'.files e.1).freeOids) ∧
  s'.contexts (tid t) = none

/-- Only context `x` and the allocators may have changed. -/
structure Touches (x : ℕ) (s s' : OidManager τ) : Prop where
  heap : ∀ y ≠ x, s'.heap y = s.heap y
  next : s'.next = s.next
  cls : s'.cls = s.cls
  specific : s'.specific = s.specific
  contexts : s'.contexts = s.contexts
  exited : s'.exited = s.exited

variable {tid : τ → ℕ} {s s' s'' : OidManager τ} {x : ℕ}

omit [DecidableEq τ] in
theorem Touches.trans (h : Touches x s s') (h' : Touches x s' s'') : Touches x s s'' :=
  ⟨fun y hy => (h'.heap y hy).trans (h.heap y hy), h'.next.trans h.next, h'.cls.trans h.cls,
    h'.specific.trans h.specific, h'.contexts.trans h.contexts, h'.exited.trans h.exited⟩

omit [DecidableEq τ] in
theorem contextCache_touches (s : OidManager τ) (x f : ℕ) (full : Bool) :
    Touches x s (s.contextCache x f full).1 := by
  rw [contextCache]
  split
  · exact ⟨fun _ _ => rfl, rfl, rfl, rfl, rfl, rfl⟩
  · cases full with
    | false => exact ⟨fun _ hy => update_of_ne hy _ _, rfl, rfl, rfl, rfl, rfl⟩
    | true =>
      refine ⟨fun y hy => ?_, rfl, rfl, rfl, rfl, rfl⟩
      show Function.update (Function.update s.heap x []) x _ y = _
      rw [update_idem, update_of_ne hy]

omit [DecidableEq τ] in
theorem store_touches (s : OidManager τ) (x f : ℕ) (a : Allocator) (tc : ThreadCache) :
    Touches x s (s.store x f a tc) :=
  ⟨fun _ hy => update_of_ne hy _ _, rfl, rfl, rfl, rfl, rfl⟩

/-- A call enters the context of its thread and changes nothing else but allocators. -/
theorem touches_of_call {a : ManagerAct τ} {t : τ} (ht : a.caller = some t)
    (hs : s.step tid a = some s') :
    s.exited t = false ∧ Touches (s.enter tid t).2 (s.enter tid t).1 s' := by
  cases a with
  | allocOid u f full mem =>
    cases ht
    obtain ⟨hx, hs⟩ := Option.ite_none_left_eq_some.mp hs
    obtain ⟨r, -, hs⟩ := Option.bind_eq_some_iff.mp hs
    obtain ⟨-, hs⟩ := Option.ite_none_right_eq_some.mp hs
    cases hs
    exact ⟨by simpa using hx, (contextCache_touches _ _ _ _).trans (store_touches _ _ _ _ _)⟩
  | freeOid u f o full =>
    cases ht
    obtain ⟨hx, hs⟩ := Option.ite_none_left_eq_some.mp hs
    obtain ⟨-, hs⟩ := Option.ite_none_right_eq_some.mp hs
    cases hs
    exact ⟨by simpa using hx, (contextCache_touches _ _ _ _).trans (store_touches _ _ _ _ _)⟩
  | exit u => cases ht

/-- The key of a thread has the address of its context; a context belongs to one thread and
has been allocated, and its thread has an entry. -/
structure Inv (tid : τ → ℕ) (s : OidManager τ) : Prop where
  specific : ∀ t, s.specific t = (s.cls t).map .context
  lt_next : ∀ t x, s.cls t = some x → x < s.next
  unique : ∀ t u x, s.cls t = some x → s.cls u = some x → t = u
  entry : ∀ t x, s.cls t = some x → s.contexts (tid t) ≠ none

omit [DecidableEq τ] in
theorem inv_init (files : ℕ → Allocator) : Inv tid (init files : OidManager τ) :=
  ⟨fun _ => rfl, nofun, nofun, nofun⟩

/-- Of the threads that have a context, one has lost it. -/
theorem update_none_eq_some {cls : τ → Option ℕ} {t u : τ} {x : ℕ}
    (h : Function.update cls t none u = some x) : u ≠ t ∧ cls u = some x := by
  by_cases hut : u = t
  · rw [hut, update_self] at h
    cases h
  · exact ⟨hut, by rwa [update_of_ne hut] at h⟩

/-- The destructor does nothing, since its argument is never the manager. -/
theorem Inv.exit_eq (h : Inv tid s) (t : τ) :
    s.exit tid t = { s with
      specific := Function.update s.specific t none
      cls := Function.update s.cls t none
      exited := Function.update s.exited t true } := by
  have hkey := h.specific t
  cases hc : s.cls t with
  | none =>
    rw [hc, Option.map_none] at hkey
    have hsame : Function.update s.specific t none = s.specific := by
      rw [← hkey, update_eq_self]
    rw [exit, hkey, hsame]
  | some x =>
    rw [hc, Option.map_some] at hkey
    rw [exit, hkey]
    rfl

theorem Inv.exit (h : Inv tid s) (t : τ) : Inv tid (s.exit tid t) := by
  rw [h.exit_eq t]
  refine ⟨fun u => ?_, fun u x hu => h.lt_next u x (update_none_eq_some hu).2,
    fun u v x hu hv => h.unique u v x (update_none_eq_some hu).2 (update_none_eq_some hv).2,
    fun u x hu => h.entry u x (update_none_eq_some hu).2⟩
  show Function.update s.specific t none u = (Function.update s.cls t none u).map _
  by_cases hut : u = t
  · rw [hut, update_self, update_self]
    rfl
  · rw [update_of_ne hut, update_of_ne hut]
    exact h.specific u

/-- `emplace` leaves an entry for the thread, old or new. -/
theorem contextInit_contexts (s : OidManager τ) (t : τ) (i : ℕ) :
    (s.contextInit tid t).contexts i ≠ none ↔ s.contexts i ≠ none ∨ tid t = i := by
  show (if (s.contexts (tid t)).isSome then s.contexts
    else Function.update s.contexts (tid t) (some s.next)) i ≠ none ↔ _
  by_cases hsome : (s.contexts (tid t)).isSome
  · rw [if_pos hsome]
    refine ⟨.inl, fun hi => ?_⟩
    obtain hi | rfl := hi
    · exact hi
    · exact Option.isSome_iff_ne_none.mp hsome
  · rw [if_neg hsome]
    by_cases hit : i = tid t
    · rw [hit, update_self]
      simp
    · rw [update_of_ne hit]
      exact ⟨.inl, fun hi => hi.resolve_right (Ne.symm hit)⟩

theorem Inv.contextInit (h : Inv tid s) {t : τ} (ht : s.cls t = none) :
    Inv tid (s.contextInit tid t) := by
  have hcls : ∀ u x, Function.update s.cls t (some s.next) u = some x →
      u = t ∧ x = s.next ∨ u ≠ t ∧ s.cls u = some x := by
    intro u x hu
    by_cases hut : u = t
    · rw [hut, update_self] at hu
      cases hu
      exact .inl ⟨hut, rfl⟩
    · rw [update_of_ne hut] at hu
      exact .inr ⟨hut, hu⟩
  refine ⟨fun u => ?_, fun u x hu => ?_, fun u v x hu hv => ?_, fun u x hu => ?_⟩
  · show Function.update s.specific t _ u = (Function.update s.cls t _ u).map _
    by_cases hut : u = t
    · rw [hut, update_self, update_self]
      rfl
    · rw [update_of_ne hut, update_of_ne hut]
      exact h.specific u
  · show x < s.next + 1
    obtain ⟨-, rfl⟩ | ⟨-, hold⟩ := hcls u x hu
    · exact Nat.lt_succ_self _
    · exact (h.lt_next u x hold).trans (Nat.lt_succ_self _)
  · -- the number of the new context is above all others
    obtain ⟨hut, hx⟩ | ⟨-, hold⟩ := hcls u x hu
    · obtain ⟨hvt, -⟩ | ⟨-, hold'⟩ := hcls v x hv
      · rw [hut, hvt]
      · exact absurd (hx ▸ h.lt_next v x hold') (lt_irrefl _)
    · obtain ⟨-, hx⟩ | ⟨-, hold'⟩ := hcls v x hv
      · exact absurd (hx ▸ h.lt_next u x hold) (lt_irrefl _)
      · exact h.unique u v x hold hold'
  · obtain ⟨rfl, -⟩ | ⟨-, hold⟩ := hcls u x hu
    · exact (contextInit_contexts s _ _).mpr (.inr rfl)
    · exact (contextInit_contexts s _ _).mpr (.inl (h.entry u x hold))

omit [DecidableEq τ] in
theorem Inv.touches (h : Inv tid s) (ht : Touches x s s') : Inv tid s' := by
  refine ⟨fun t => ?_, fun t y hy => ?_, fun t u y hy hy' => ?_, fun t y hy => ?_⟩
  · rw [ht.specific, ht.cls]
    exact h.specific t
  · rw [ht.next]
    exact h.lt_next t y (ht.cls ▸ hy)
  · exact h.unique t u y (ht.cls ▸ hy) (ht.cls ▸ hy')
  · rw [ht.contexts]
    exact h.entry t y (ht.cls ▸ hy)

theorem enter_cases (tid : τ → ℕ) (s : OidManager τ) (t : τ) :
    (∃ x, s.cls t = some x ∧ s.enter tid t = (s, x)) ∨
      s.cls t = none ∧ s.enter tid t = (s.contextInit tid t, s.next) := by
  cases hc : s.cls t with
  | none => exact .inr ⟨rfl, by rw [enter, hc]⟩
  | some x => exact .inl ⟨x, rfl, by rw [enter, hc]⟩

/-- After a call its thread has an entry, and no other entry has come or gone. -/
theorem Inv.enter (h : Inv tid s) (t : τ) :
    Inv tid (s.enter tid t).1 ∧
      ∀ i, (s.enter tid t).1.contexts i ≠ none ↔ s.contexts i ≠ none ∨ tid t = i := by
  obtain ⟨x, hx, heq⟩ | ⟨hx, heq⟩ := enter_cases tid s t <;> rw [heq]
  · refine ⟨h, fun i => ⟨.inl, fun hi => ?_⟩⟩
    obtain hi | rfl := hi
    · exact hi
    · exact h.entry t x hx
  · exact ⟨h.contextInit hx, contextInit_contexts s t⟩

/-- Nobody uses the context any more. -/
def Orphan (s : OidManager τ) (x : ℕ) : Prop := x < s.next ∧ ∀ t, s.cls t ≠ some x

theorem Orphan.enter {x : ℕ} (h : s.Orphan x) (tid : τ → ℕ) (t : τ) :
    (s.enter tid t).1.Orphan x ∧ (s.enter tid t).2 ≠ x ∧
      (s.enter tid t).1.heap x = s.heap x := by
  obtain ⟨y, hy, heq⟩ | ⟨hy, heq⟩ := enter_cases tid s t <;> rw [heq]
  · exact ⟨h, fun hxy => h.2 t (hxy ▸ hy), rfl⟩
  · have hne : x ≠ s.next := h.1.ne
    refine ⟨⟨h.1.trans (Nat.lt_succ_self _), fun u hu => ?_⟩, hne.symm,
      update_of_ne hne _ _⟩
    replace hu : Function.update s.cls t (some s.next) u = some x := hu
    by_cases hut : u = t
    · rw [hut, update_self] at hu
      exact hne (Option.some.inj hu).symm
    · rw [update_of_ne hut] at hu
      exact h.2 u hu

/-- A step, for the bookkeeping of the threads: a call or an exit. -/
theorem step_cases {a : ManagerAct τ} (hs : s.step tid a = some s') :
    (∃ t, a.caller = some t ∧ Touches (s.enter tid t).2 (s.enter tid t).1 s') ∨
      ∃ t, a = .exit t ∧ s' = s.exit tid t := by
  cases a with
  | allocOid t _ _ _ | freeOid t _ _ _ => exact .inl ⟨t, rfl, (touches_of_call rfl hs).2⟩
  | exit t =>
    obtain ⟨-, hs⟩ := Option.ite_none_left_eq_some.mp hs
    exact .inr ⟨t, rfl, (Option.some.inj hs).symm⟩

theorem Inv.step (h : Inv tid s) {a : ManagerAct τ} (hs : s.step tid a = some s') :
    Inv tid s' ∧
      ∀ i, s'.contexts i ≠ none ↔ s.contexts i ≠ none ∨ ∃ t, a.caller = some t ∧ tid t = i := by
  obtain ⟨t, ht, htouch⟩ | ⟨t, rfl, rfl⟩ := step_cases hs
  · obtain ⟨hinv, hentry⟩ := h.enter t
    refine ⟨hinv.touches htouch, fun i => ?_⟩
    rw [htouch.contexts, hentry, ht]
    simp
  · refine ⟨h.exit t, fun i => ?_⟩
    rw [h.exit_eq t]
    simp [ManagerAct.caller]

/-- What an orphan context holds is not reached by any step. -/
theorem Orphan.step {x : ℕ} (ho : s.Orphan x) (h : Inv tid s) {a : ManagerAct τ}
    (hs : s.step tid a = some s') : s'.Orphan x ∧ s'.heap x = s.heap x := by
  obtain ⟨t, -, htouch⟩ | ⟨t, rfl, rfl⟩ := step_cases hs
  · obtain ⟨⟨hlt, hcls⟩, hne, hheap⟩ := ho.enter tid t
    refine ⟨⟨htouch.next.symm ▸ hlt, fun u => htouch.cls.symm ▸ hcls u⟩, ?_⟩
    rw [htouch.heap x hne.symm, hheap]
  · rw [h.exit_eq t]
    exact ⟨⟨ho.1, fun u hu => ho.2 u (update_none_eq_some hu).2⟩, rfl⟩

open StepRun

theorem Orphan.run {x : ℕ} {as : List (ManagerAct τ)} (ho : s.Orphan x) (h : Inv tid s)
    (hrun : run (OidManager.step tid) s as = some s') : s'.heap x = s.heap x := by
  have hinv := run_invariant
    (I := fun r => Inv tid r ∧ r.Orphan x ∧ r.heap x = s.heap x) ?_ hrun ⟨h, ho, rfl⟩
  · exact hinv.2.2
  · rintro r a r' hs ⟨hi, hor, hheap⟩
    obtain ⟨hor', hheap'⟩ := hor.step hi hs
    exact ⟨(hi.step hs).1, hor', hheap'.trans hheap⟩

/-- The entries are those of the threads that have made calls. -/
theorem inv_of_run {files : ℕ → Allocator} {as : List (ManagerAct τ)}
    (hrun : run (OidManager.step tid) (init files) as = some s) :
    Inv tid s ∧ ∀ i, s.contexts i ≠ none ↔ ∃ a ∈ as, ∃ t, a.caller = some t ∧ tid t = i := by
  refine run_induction (P := fun as s => Inv tid s ∧
    ∀ i, s.contexts i ≠ none ↔ ∃ a ∈ as, ∃ t, a.caller = some t ∧ tid t = i) ?_ ?_ hrun
  · exact ⟨inv_init files, fun i => by simp [init]⟩
  · rintro as m a m' - hs ⟨hinv, hentry⟩
    obtain ⟨hinv', hentry'⟩ := hinv.step hs
    refine ⟨hinv', fun i => ?_⟩
    rw [hentry', hentry]
    simp [or_and_right, exists_or]

/-- **Thread exit.**  An exit does what it is meant to do just if neither the thread nor one
with the same `pthread_self` before it has made a call.  Whatever is in the caches of the
thread stays there, after every later run. -/
theorem exit_releases_iff {files : ℕ → Allocator} {as : List (ManagerAct τ)} {t : τ}
    (hrun : run (OidManager.step tid) (init files) as = some s)
    (hs : s.step tid (.exit t) = some s') :
    (Released tid s s' t ↔ ∀ a ∈ as, ∀ u, a.caller = some u → tid u ≠ tid t) ∧
      ∀ x, s.cls t = some x → ∀ bs s'', run (OidManager.step tid) s' bs = some s'' →
        s''.heap x = s.heap x := by
  obtain ⟨h, hentry⟩ := inv_of_run hrun
  obtain ⟨-, hs⟩ := Option.ite_none_left_eq_some.mp hs
  obtain rfl : s.exit tid t = s' := Option.some.inj hs
  have hexit := h.exit_eq t
  constructor
  · have hnone : s.contexts (tid t) = none ↔ ∀ a ∈ as, ∀ u, a.caller = some u → tid u ≠ tid t := by
      rw [← not_iff_not, ← ne_eq, hentry]
      simp
    rw [Released, ← hnone]
    constructor
    · intro hrel
      have := hrel.2
      rwa [hexit] at this
    · intro hcontext
      refine ⟨fun x hx => absurd hcontext (h.entry t x hx), ?_⟩
      rw [hexit]
      exact hcontext
  · intro x hx bs s'' hrun'
    have horphan : (s.exit tid t).Orphan x := by
      rw [hexit]
      refine ⟨h.lt_next t x hx, fun u hu => ?_⟩
      obtain ⟨hut, hu⟩ := update_none_eq_some hu
      exact hut (h.unique u t x hu hx)
    rw [horphan.run (h.exit t) hrun', hexit]

/-- One thread has made a call, and another one exits. -/
theorem exit_releases_other : ∃ s s' : OidManager Bool,
    run (OidManager.step Bool.toNat) (init fun _ => OidSystem.newFile.alloc)
        [.allocOid true 1 false fun _ => none] = some s ∧
      s.step Bool.toNat (.exit false) = some s' ∧ Released Bool.toNat s s' false := by
  have hrun : ((run (OidManager.step Bool.toNat) (init fun _ => OidSystem.newFile.alloc)
      [.allocOid true 1 false fun _ => none]).bind fun s =>
        s.step Bool.toNat (.exit false)).isSome := by decide +kernel
  obtain ⟨s', hs'⟩ := Option.isSome_iff_exists.mp hrun
  obtain ⟨s, hs, hexit⟩ := Option.bind_eq_some_iff.mp hs'
  refine ⟨s, s', hs, hexit, (exit_releases_iff hs hexit).1.mpr fun a ha u hu => ?_⟩
  rw [List.mem_singleton] at ha
  subst ha
  cases hu
  decide

/-- A thread takes one OID and exits: the other 63 of its cache are in neither L1 nor L2,
and its entry stays. -/
theorem exit_keeps_cache : ∃ s s' : OidManager Unit,
    run (OidManager.step fun _ => 7) (init fun _ => OidSystem.newFile.alloc)
        [.allocOid () 1 false fun _ => none] = some s ∧
      s.step (fun _ => 7) (.exit ()) = some s' ∧
      (s'.heap 0).map (fun e => (e.1, e.2.nentries)) = [(1, 63)] ∧
      (s'.files 1).l1Size = 0 ∧ ¬ (s'.files 1).l2.valid ∧ s'.contexts 7 = some 0 := by
  have hrun : ((run (OidManager.step fun _ => 7) (init fun _ => OidSystem.newFile.alloc)
      [.allocOid () 1 false fun _ => none]).bind fun s =>
        s.step (fun _ => 7) (.exit ())).map (fun s => ((s.heap 0).map (fun e =>
          (e.1, e.2.nentries)), (s.files 1).l1Size, decide (s.files 1).l2.valid, s.contexts 7)) =
      some ([(1, 63)], 0, false, some 0) := by decide +kernel
  obtain ⟨s', hs', hview⟩ := Option.map_eq_some_iff.mp hrun
  obtain ⟨s, hs, hexit⟩ := Option.bind_eq_some_iff.mp hs'
  simp only [Prod.mk.injEq, decide_eq_false_iff_not] at hview
  exact ⟨s, s', hs, hexit, hview⟩

end OidManager

end PreemptDB
