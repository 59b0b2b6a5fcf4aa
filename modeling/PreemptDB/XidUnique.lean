/-
XIDs are unique, and so are the contexts of those that are live.

* `xid_unique` — live XIDs have different contexts, no XID is issued twice, and
  `xid_get_context` finds the context of an XID or nothing;
* `contexts_kept` — every id is at one place, in runs in which none gets lost;
* `ended_with_word` — a run in which ids get lost, because a thread ends.
-/
import PreemptDB.XidInv

namespace PreemptDB

open StepRun

namespace XidAlloc

variable {ι : Type*} {s s' : State ι} {id : ℕ}

/-- At the start the ids are in the first two bitmaps. -/
theorem at_init {p : Place ι} (hp : (State.init : State ι).At id p) :
    p = .bitmap (id / (ncontexts / 2)) := by
  cases p with
  | bitmap b =>
    obtain ⟨-, hhalf, hmem, -⟩ := hp
    change _ ∈ (if b < 2 then Finset.range bitsPerWord else ∅) at hmem
    by_cases hb : b < 2
    · rw [← hhalf, Nat.mod_eq_of_lt hb]
    · rw [if_neg hb] at hmem
      exact absurd hmem (Finset.notMem_empty _)
  | word i e =>
    obtain ⟨hinit, -⟩ := hp
    cases hinit
  | claim i e =>
    obtain ⟨hpc, -⟩ := hp
    cases hpc
  | live e => exact absurd hp (Finset.notMem_empty _)
  | free i e => cases hp

theorem at_bitmap_init (hid : id < ncontexts) :
    (State.init : State ι).At id (.bitmap (id / (ncontexts / 2))) := by
  have hlt : id / (ncontexts / 2) < 2 := Nat.div_lt_of_lt_mul hid
  refine ⟨lt_trans hlt (by decide), Nat.mod_eq_of_lt hlt, ?_, fun _ => rfl⟩
  change _ ∈ (if id / (ncontexts / 2) < 2 then Finset.range bitsPerWord else ∅)
  rw [if_pos hlt, Finset.mem_range]
  exact Nat.mod_lt _ (by decide)

theorem inv_init : Inv (State.init : State ι) where
  manager := ⟨_, _, Epoch.inv_init⟩
  thread i := by
    refine ⟨rfl, fun h => ?_, fun h => ?_, trivial⟩
    · cases h
    · cases h
  holds i j k hi := by
    rcases hi with ⟨hinit, -⟩ | hhold
    · cases hinit
    · cases hhold
  taken e k h := absurd h (Finset.notMem_empty _)
  issued x h := absurd h List.not_mem_nil
  spaced := List.Pairwise.nil
  live x h := absurd h (Finset.notMem_empty _)
  owner id o h := by cases h
  bits b k := by
    show (if b < 2 then Finset.range bitsPerWord else ∅) ⊆ _
    by_cases hb : b < 2
    · rw [if_pos hb]
    · rw [if_neg hb]
      exact Finset.empty_subset _
  unique id _ p q hp hq := (at_init hp).trans (at_init hq).symm
  rows id _ p _ x hx := absurd hx List.not_mem_nil

/-- Epochs that fit into an XID. -/
theorem Inv.epoch_lt (h : Inv s) (hb : s.epochs.beginEpoch < 2 ^ 16) {x : Xid}
    (hx : x ∈ s.issued) : XID.epoch (toPtr x) = x.epoch := by
  have hle := (h.taken _ _ (h.issued x hx).2.2).1
  rw [epoch_toPtr (h.issued x hx).1, Nat.mod_eq_of_lt (lt_of_le_of_lt hle hb)]

/-- The words of two XIDs with the same epoch and id are the same XID. -/
theorem Inv.toPtr_inj (h : Inv s) (hb : s.epochs.beginEpoch < 2 ^ 16) {x y : Xid}
    (hx : x ∈ s.issued) (hy : y ∈ s.issued) (heq : toPtr x = toPtr y) : x = y := by
  refine xid_eq ?_ ?_
  · rw [← h.epoch_lt hb hx, ← h.epoch_lt hb hy, heq]
  · rw [← localId_toPtr (h.issued x hx).1, ← localId_toPtr (h.issued y hy).1, heq]

/-- A context is found only for its owner. -/
theorem Inv.getContext (h : Inv s) (hb : s.epochs.beginEpoch < 2 ^ 16) {x : Xid}
    (hx : x ∈ s.issued) {c : ℕ} (hc : s.getContext (toPtr x) = some c) :
    c = x.localId ∧ s.owner c = some (toPtr x) ∧ x ∈ s.live := by
  rw [State.getContext, localId_toPtr (h.issued x hx).1] at hc
  cases ho : s.owner x.localId with
  | none =>
    rw [ho] at hc
    cases hc
  | some o =>
    rw [ho] at hc
    obtain ⟨hnear, hc⟩ := Option.ite_none_left_eq_some.mp hc
    cases hc
    obtain ⟨y, hy, hyid, rfl⟩ := h.owner _ _ ho
    obtain ⟨hyi, -, hyx⟩ := h.live y hy
    rcases hyx x hx hyid.symm with rfl | hlate
    · exact ⟨rfl, ho, hy⟩
    · rw [h.epoch_lt hb hx, h.epoch_lt hb hyi] at hnear
      omega

variable [DecidableEq ι]

theorem run_inv {as : List (Act ι)} (hr : run State.step State.init as = some s) :
    Inv s :=
  run_invariant (fun hs h => (h.step hs).inv) hr inv_init

/-- While epochs fit into 16 bits: XIDs that are live have different contexts, no XID is
issued twice, and `xid_get_context` returns the context of an XID only while it is its
owner, so nothing when the context has been issued again. -/
theorem xid_unique {as : List (Act ι)} (hr : run State.step State.init as = some s)
    (hb : s.epochs.beginEpoch < 2 ^ 16) :
    (∀ x ∈ s.live, ∀ y ∈ s.live, XID.localId (toPtr x) = XID.localId (toPtr y) → x = y) ∧
      (s.issued.map toPtr).Nodup ∧
      (∀ x ∈ s.issued, ∀ c, s.getContext (toPtr x) = some c →
        c = XID.localId (toPtr x) ∧ s.owner c = some (toPtr x)) ∧
      s.issued.Pairwise fun x y => XID.localId (toPtr x) = XID.localId (toPtr y) →
        s.getContext (toPtr x) = none := by
  have h := run_inv hr
  have hlocal : ∀ {x}, x ∈ s.issued → XID.localId (toPtr x) = x.localId := fun hx =>
    localId_toPtr (h.issued _ hx).1
  have hnodup : s.issued.Pairwise fun x y => x ≠ y :=
    h.spaced.imp fun hxy heq => by
      have := hxy (by rw [heq])
      rw [heq] at this
      omega
  refine ⟨fun x hx y hy heq => ?_, ?_, fun x hx c hc => ?_, ?_⟩
  · have hxi := (h.live x hx).1
    have hyi := (h.live y hy).1
    rw [hlocal hxi, hlocal hyi] at heq
    have hp := h.unique _ (h.issued y hyi).1 (.live x.epoch) (.live y.epoch)
      (by rw [← heq]; exact hx) hy
    exact xid_eq (Place.live.inj hp) heq
  · rw [List.nodup_map_iff_inj_on hnodup]
    intro x hx y hy heq
    exact h.toPtr_inj hb hx hy heq
  · obtain ⟨rfl, ho, -⟩ := h.getContext hb hx hc
    exact ⟨(hlocal hx).symm, ho⟩
  · refine h.spaced.imp_of_mem fun {x y} hx hy hxy heq => ?_
    rw [hlocal hx, hlocal hy] at heq
    cases hc : s.getContext (toPtr x) with
    | none => rfl
    | some c =>
      -- the live XID of the context is not older than the later one
      obtain ⟨-, -, hlive⟩ := h.getContext hb hx hc
      have hlate := hxy heq
      rcases (h.live x hlive).2.2 y hy heq.symm with rfl | hearly <;> omega

/-- The steps of a thread inside the epoch manager. -/
def managerSteps (i : ι) (n : ℕ) : List (Act ι) := List.replicate n (.manager i i true)

/-- A thread registers and takes a word of the bitmap of the first epoch. -/
def firstWord (i : ι) : List (Act ι) :=
  .alloc i :: managerSteps i 3 ++ [.step i, .step i] ++ managerSteps i 5 ++
    List.replicate 6 (.step i) ++ managerSteps i 3 ++ [.step i]

/-- It gets its XID and calls `xid_alloc` again. -/
def twoXids : List (Act Unit) :=
  firstWord () ++ [.step (), .step (), .alloc (), .step (), .step ()]

theorem xid_unique_twoXids :
    ∃ s, run State.step State.init twoXids = some s ∧ s.live.card = 2 ∧
      s.epochs.beginEpoch < 2 ^ 16 ∧ (s.issued.map toPtr).Nodup := by
  have hrun : (run State.step State.init twoXids).map
      (fun s => (s.live.card, s.epochs.beginEpoch)) = some (2, 1) := by decide +kernel
  obtain ⟨s, hr, hs⟩ := Option.map_eq_some_iff.mp hrun
  obtain ⟨hlive, hb⟩ := Prod.mk.inj hs
  have hlt : s.epochs.beginEpoch < 2 ^ 16 := by
    rw [hb]
    decide
  exact ⟨s, hr, hlive, hlt, (xid_unique hr hlt).2.1⟩

/-- In a run in which every bit lands and no thread ends with bits, every id is at one
place: in a bitmap, in the local word of a thread, or with an XID. -/
theorem contexts_kept {as : List (Act ι)} (hok : Along State.step Kept State.init as)
    (hr : run State.step State.init as = some s) (hid : id < ncontexts) :
    ∃! p, s.At id p := by
  have hexists : Inv s ∧ ∃ p, s.At id p := by
    refine run_invariant_along (I := fun s => Inv s ∧ ∃ p, s.At id p)
      (fun hk hs h => ?_) hok hr ⟨inv_init, _, at_bitmap_init hid⟩
    have hgood := h.1.step hs
    exact ⟨hgood.inv, (hgood.trip id hid).exists hk h.2⟩
  obtain ⟨h, p, hp⟩ := hexists
  exact ⟨p, hp, fun q hq => h.unique id hid q p hq hp⟩

/-- The first XID is freed. -/
def freedXid : List (Act Unit) :=
  firstWord () ++ [.step (), .step (), .free () ⟨1, 2097152⟩, .step ()]

theorem contexts_kept_freedXid :
    Along State.step Kept State.init freedXid ∧
      ∃ s, run State.step State.init freedXid = some s ∧ ∃! p, s.At 2097152 p := by
  have hok : Along State.step Kept State.init freedXid := by decide +kernel
  have hrun : (run State.step State.init freedXid).isSome = true := by decide +kernel
  obtain ⟨s, hr⟩ := Option.isSome_iff_exists.mp hrun
  exact ⟨hok, s, hr, contexts_kept hok hr (by decide)⟩

/-- The id is in no bitmap and not with an XID, and the only thread is about to end. -/
def gone (s : State Unit) (id : ℕ) : Bool :=
  (List.range nbitmaps).all (fun b => b % 2 = id / (ncontexts / 2) →
    id % bitsPerWord ∉ s.data b (wordOf id)) &&
  !(s.tls ()).initialized && s.pc () = .exiting && s.live = ∅

theorem not_at_of_gone {s : State Unit} (h : gone s id = true) (p : Place Unit) : ¬ s.At id p := by
  simp only [gone, Bool.and_eq_true, List.all_eq_true, List.mem_range, decide_eq_true_iff,
    Bool.not_eq_true'] at h
  obtain ⟨⟨⟨hbits, hinit⟩, hpc⟩, hlive⟩ := h
  cases p with
  | bitmap b =>
    rintro ⟨hb, hhalf, hmem, -⟩
    exact hbits b hb hhalf hmem
  | word i e =>
    rintro ⟨htrue, -⟩
    rw [hinit] at htrue
    cases htrue
  | claim i e =>
    rintro ⟨hclaim, -⟩
    rw [hpc] at hclaim
    cases hclaim
  | live e =>
    intro hmem
    rw [State.At, hlive] at hmem
    exact Finset.notMem_empty _ hmem
  | free i e =>
    intro hfree
    rw [State.At, hpc] at hfree
    cases hfree

/-- The thread ends: the ids of its word that it has not issued are lost. -/
theorem ended_with_word :
    ∃ s, run State.step State.init (freedXid ++ [.exit ()]) = some s ∧
      ∀ p, ¬ s.At 2097153 p := by
  have hrun : (run State.step State.init (freedXid ++ [.exit ()])).map
      (fun s => gone s 2097153) = some true := by decide +kernel
  obtain ⟨s, hr, hgone⟩ := Option.map_eq_some_iff.mp hrun
  exact ⟨s, hr, not_at_of_gone hgone⟩

end XidAlloc

end PreemptDB
