/-
Every OID is in one place.

The OIDs below the high water mark are held by the application, or they are in a
live slot of a cache, in L1 or in a bitset of L2.  The places are multisets, so
one equation says that each OID is in exactly one of them.

* `Allocator.Inv`, `freeOids` — L1 and L2 together;
* `Filled` — what the parts of `fill_cache` keep;
* `fillLoop_spec` — `fill_cache` with any L3 that is left alone, and when it is `Short`;
* `drainCache_spec`, `fillCache_spec` — the two calls;
* `OidSystem.Inv.step` — the partition is kept by every call.

Two things break it.  `drain_cache` subtracts its target from `nentries` without
looking at it, and the bitsets of L2 are read through `as_array`.
-/
import PreemptDB.OidBitmaps

namespace PreemptDB

open Function Segment StepRun

/-- The OIDs in the live slots of a cache. -/
def ThreadCache.oids (tc : ThreadCache) : Multiset ℕ := seg tc.entries 0 tc.nentries

theorem ThreadCache.oids_append (tc : ThreadCache) (xs : List ℕ) :
    (tc.append xs).oids = tc.oids + (xs : Multiset ℕ) := seg_put _ _ _

theorem usub_eq {w a b : ℕ} (hle : b ≤ a) (hlt : a < 2 ^ w) : usub w a b = a - b := by
  rw [usub, show a + 2 ^ w - b = a - b + 2 ^ w by omega, Nat.add_mod_right]
  exact Nat.mod_eq_of_lt (by omega)

namespace Allocator

def l2Oids (a : Allocator) : Multiset ℕ :=
  if a.l2.valid then a.l2.assignedOids + a.l2.listedOids else 0

/-- The OIDs in L1 and L2. -/
def freeOids (a : Allocator) : Multiset ℕ := seg a.l1 0 a.l1Size + a.l2Oids

structure Inv (a : Allocator) : Prop where
  l1_le : a.l1Size ≤ L1_CAPACITY
  hiwater_lt : a.hiwaterMark < 2 ^ 32
  capacity_lt : a.capacityMark < 2 ^ 32
  l2 : a.l2.valid → a.l2.Inv

variable {a : Allocator} {tc : ThreadCache} {mem : Memory}

section Drain

/-- A round of `_drain_l1`: the OID goes to L2, or back to L1. -/
theorem Inv.drainOid_spec (h : Inv a) (hv : a.l2.valid) {x : ℕ} (hx : x < 2 ^ 32)
    (hmem : x ∉ a.freeOids) (hlt : a.l1Size < L1_CAPACITY) :
    Inv (a.drainOid x) ∧ (a.drainOid x).l2.valid ∧
      (a.drainOid x).freeOids = x ::ₘ a.freeOids ∧ (a.drainOid x).l1Size ≤ a.l1Size + 1 ∧
      (a.drainOid x).hiwaterMark = a.hiwaterMark ∧
      ∀ i, i ≠ a.l1Size → (a.drainOid x).l1 i = a.l1 i := by
  have hfree : a.freeOids = seg a.l1 0 a.l1Size + (a.l2.assignedOids + a.l2.listedOids) := by
    rw [freeOids, l2Oids, if_pos hv]
  rw [drainOid]
  cases hins : a.l2.insertOid x with
  | none =>
    refine ⟨⟨hlt, h.hiwater_lt, h.capacity_lt, h.l2⟩, hv, ?_, le_rfl, rfl,
      fun i hi => update_of_ne hi _ _⟩
    change seg (Function.update a.l1 a.l1Size x) 0 (a.l1Size + 1) + a.l2Oids = _
    have hsnoc := seg_update_snoc a.l1 0 a.l1Size x
    rw [Nat.zero_add] at hsnoc
    rw [hsnoc, Multiset.cons_add]
    rfl
  | some l2 =>
    have hassigned : x ∉ a.l2.assignedOids := fun hin => hmem (by
      rw [hfree]
      exact Multiset.mem_add.mpr (.inr (Multiset.mem_add.mpr (.inl hin))))
    obtain ⟨hinv, hoids⟩ := (h.l2 hv).insertOid_spec hx hassigned hins
    have hv' : l2.valid := hinv.first_pos.ne'
    refine ⟨⟨h.l1_le, h.hiwater_lt, h.capacity_lt, fun _ => hinv⟩, hv', ?_, Nat.le_succ _, rfl,
      fun _ _ => rfl⟩
    rw [hfree, ← Multiset.add_cons, ← hoids, freeOids, l2Oids, if_pos hv']

/-- The places of L1 that are still to go are not overwritten: OIDs that are put
back take places that have been read already. -/
theorem Inv.drainLoop_spec : ∀ (n j : ℕ) {a : Allocator}, Inv a → a.l2.valid → a.l1Size ≤ j →
    j + n ≤ L1_CAPACITY → (∀ x ∈ seg a.l1 j n, x < 2 ^ 32) →
    (seg a.l1 j n + a.freeOids).Nodup →
    Inv (drainLoop n j a) ∧ (drainLoop n j a).freeOids = seg a.l1 j n + a.freeOids ∧
      (drainLoop n j a).hiwaterMark = a.hiwaterMark := by
  intro n
  induction n with
  | zero =>
    intro j a h _ _ _ _ _
    exact ⟨h, (zero_add _).symm, rfl⟩
  | succ n ih =>
    intro j a h hv hj hle hlt hnodup
    rw [seg_cons, Multiset.cons_add, Multiset.nodup_cons] at hnodup
    rw [seg_cons] at hlt ⊢
    obtain ⟨hinv, hv', hoids, hsize, hhi, hl1⟩ := h.drainOid_spec hv
      (hlt _ (Multiset.mem_cons_self _ _))
      (fun hin => hnodup.1 (Multiset.mem_add.mpr (.inr hin))) (by omega)
    have hseg : seg (a.drainOid (a.l1 j)).l1 (j + 1) n = seg a.l1 (j + 1) n :=
      seg_congr fun i hle' _ => hl1 i (by omega)
    obtain ⟨hinv', hoids', hhi'⟩ := ih (j + 1) hinv hv' (by omega) (by omega)
      (fun x hx => hlt x (Multiset.mem_cons_of_mem (hseg ▸ hx)))
      (by rw [hseg, hoids, Multiset.add_cons, Multiset.nodup_cons]; exact hnodup)
    refine ⟨hinv', ?_, hhi'.trans hhi⟩
    rw [drainLoop, hoids', hseg, hoids, Multiset.add_cons, Multiset.cons_add]

/-- The OIDs at the top of L1 and the others. -/
theorem freeOids_split (a : Allocator) {n : ℕ} (hle : n ≤ a.l1Size) :
    a.freeOids = seg a.l1 (a.l1Size - n) n + freeOids { a with l1Size := a.l1Size - n } := by
  change _ = _ + (seg a.l1 0 (a.l1Size - n) + a.l2Oids)
  rw [freeOids, seg_sub a.l1 hle]
  abel

theorem Inv.drainL1_spec (h : Inv a) {target : ℕ} (hle : target ≤ a.l1Size)
    (hlt : ∀ x ∈ a.freeOids, x < 2 ^ 32) (hnodup : a.freeOids.Nodup) :
    Inv (a.drainL1 target) ∧ (a.drainL1 target).freeOids = a.freeOids ∧
      (a.drainL1 target).hiwaterMark = a.hiwaterMark := by
  -- a new L2 is empty
  obtain ⟨b, hb, hinv, hv, hl1, hsize, hoids, hhi⟩ : ∃ b : Allocator,
      a.drainL1 target =
        drainLoop target (b.l1Size - target) { b with l1Size := b.l1Size - target } ∧
      Inv b ∧ b.l2.valid ∧ b.l1 = a.l1 ∧ b.l1Size = a.l1Size ∧ b.l2Oids = a.l2Oids ∧
      b.hiwaterMark = a.hiwaterMark := by
    by_cases hv : a.l2.valid
    · refine ⟨a, ?_, h, hv, rfl, rfl, rfl, rfl⟩
      rw [drainL1, if_pos hv]
    · refine ⟨{ a with l2 := a.l2.init }, ?_, ⟨h.l1_le, h.hiwater_lt, h.capacity_lt,
        fun _ => a.l2.inv_init⟩, Nat.one_ne_zero, rfl, rfl, ?_, rfl⟩
      · rw [drainL1, if_neg hv]
      · rw [l2Oids, l2Oids, if_neg hv]
        change (if a.l2.init.valid then a.l2.init.assignedOids + a.l2.init.listedOids else 0) = 0
        rw [a.l2.oids_init.1, a.l2.oids_init.2, add_zero, ite_self]
  have hsplit : a.freeOids = seg b.l1 (b.l1Size - target) target +
      freeOids { b with l1Size := b.l1Size - target } := by
    rw [← b.freeOids_split (hsize ▸ hle), freeOids, freeOids, hl1, hsize, hoids]
  have hcap := h.l1_le
  have hstart : Inv { b with l1Size := b.l1Size - target } :=
    ⟨(Nat.sub_le _ _).trans hinv.l1_le, hinv.hiwater_lt, hinv.capacity_lt, hinv.l2⟩
  obtain ⟨hinv', hoids', hhi'⟩ := Inv.drainLoop_spec target (b.l1Size - target) hstart hv le_rfl
    (by omega)
    (fun x hx => hlt x (by rw [hsplit]; exact Multiset.mem_add.mpr (.inl hx)))
    (by rw [← hsplit]; exact hnodup)
  rw [hb]
  exact ⟨hinv', hoids'.trans hsplit.symm, hhi'.trans hhi⟩

theorem makeRoom_eq (h : a.l1Size ≤ L1_CAPACITY) {n : ℕ} (hn : n ≤ CACHE_N) :
    a.makeRoom n = if L1_CAPACITY < a.l1Size + n then a.drainL1 (L1_CAPACITY / 2) else a := by
  rw [CACHE_N] at hn
  rw [L1_CAPACITY] at h
  rw [makeRoom, Nat.mod_eq_of_lt (by omega)]

/-- L1 is drained first if need be. -/
theorem Inv.makeRoom_spec (h : Inv a) {n : ℕ} (hn : n ≤ CACHE_N)
    (hlt : ∀ x ∈ a.freeOids, x < 2 ^ 32) (hnodup : a.freeOids.Nodup) :
    Inv (a.makeRoom n) ∧ (a.makeRoom n).freeOids = a.freeOids ∧
      (a.makeRoom n).hiwaterMark = a.hiwaterMark := by
  rw [makeRoom_eq h.l1_le hn]
  rw [CACHE_N] at hn
  split
  next hc =>
    refine h.drainL1_spec ?_ hlt hnodup
    rw [L1_CAPACITY] at hc ⊢
    omega
  next => exact ⟨h, rfl, rfl⟩

/-- `drain_cache` with a target that the cache can meet. -/
theorem Inv.drainCache_spec (h : Inv a) (hn : tc.nentries ≤ CACHE_N)
    (hlt : ∀ x ∈ a.freeOids, x < 2 ^ 32) (hnodup : a.freeOids.Nodup) {target : ℕ}
    (htarget : target ≤ tc.nentries) :
    Inv (a.drainCache tc target).1 ∧
      (a.drainCache tc target).2.1.oids + (a.drainCache tc target).1.freeOids =
        tc.oids + a.freeOids ∧
      (a.drainCache tc target).1.hiwaterMark = a.hiwaterMark ∧
      (a.drainCache tc target).2.1.nentries ≤ tc.nentries := by
  obtain ⟨hinv, hoids, hhi⟩ := h.makeRoom_spec hn hlt hnodup
  rw [CACHE_N] at hn
  obtain ⟨t, ht, hle⟩ : ∃ t, (if target = 0 then tc.nentries else target) = t ∧
      t ≤ tc.nentries := by
    by_cases hc : target = 0
    · exact ⟨_, if_pos hc, le_rfl⟩
    · exact ⟨_, if_neg hc, htarget⟩
  rw [drainCache, ht]
  generalize a.makeRoom tc.nentries = b at hinv hoids hhi ⊢
  dsimp only
  set n := min t (L1_CAPACITY - b.l1Size) with hnn
  have hcap := hinv.l1_le
  rw [usub_eq (by omega) (by omega)]
  refine ⟨⟨?_, hinv.hiwater_lt, hinv.capacity_lt, hinv.l2⟩, ?_, hhi, Nat.sub_le _ _⟩
  · change b.l1Size + n ≤ L1_CAPACITY
    omega
  · change seg tc.entries 0 (tc.nentries - n) +
      (seg (copy b.l1 b.l1Size tc.entries (tc.nentries - n) n) 0 (b.l1Size + n) + b.l2Oids) = _
    have hle' : n ≤ tc.nentries := by omega
    rw [seg_copy_append, ThreadCache.oids, seg_sub tc.entries hle', ← hoids, freeOids]
    abel

end Drain

section Fill

/-- The bitsets of L2 can be read. -/
def Readable (mem : Memory) (a : Allocator) : Prop := a.l2.valid → a.l2.Readable mem

/-- OIDs go from the allocator to the cache; new ones come from the high water mark, in
order and not past the capacity. -/
structure Filled (mem : Memory) (a : Allocator) (tc : ThreadCache) (a' : Allocator)
    (tc' : ThreadCache) : Prop where
  inv : Inv a'
  oids : tc'.oids + a'.freeOids + Multiset.range a.hiwaterMark =
    tc.oids + a.freeOids + Multiset.range a'.hiwaterMark
  readable : Readable mem a → Readable mem a'
  maps : a'.l2.maps = a.l2.maps
  capacity : a'.capacityMark = a.capacityMark
  hiwater_le : a.hiwaterMark ≤ a'.hiwaterMark
  below : a'.hiwaterMark ≤ max a.hiwaterMark a.capacityMark
  taken : tc.nentries + a'.hiwaterMark ≤ tc'.nentries + a.hiwaterMark

variable {a₁ a₂ : Allocator} {tc₁ tc₂ : ThreadCache}

theorem Inv.filled_refl (h : Inv a) : Filled mem a tc a tc :=
  ⟨h, rfl, id, rfl, rfl, le_rfl, le_max_left _ _, le_rfl⟩

theorem Filled.trans (h₁ : Filled mem a tc a₁ tc₁) (h₂ : Filled mem a₁ tc₁ a₂ tc₂) :
    Filled mem a tc a₂ tc₂ := by
  have hcap := h₁.capacity
  have hhi₁ := h₁.hiwater_le
  have hhi₂ := h₂.hiwater_le
  have hbelow₁ := h₁.below
  have hbelow₂ := h₂.below
  have htaken₁ := h₁.taken
  have htaken₂ := h₂.taken
  refine ⟨h₂.inv, add_right_cancel (b := Multiset.range a₁.hiwaterMark) ?_,
    h₂.readable ∘ h₁.readable, h₂.maps.trans h₁.maps, h₂.capacity.trans hcap, by omega, by omega,
    by omega⟩
  calc tc₂.oids + a₂.freeOids + Multiset.range a.hiwaterMark + Multiset.range a₁.hiwaterMark
      = tc₂.oids + a₂.freeOids + Multiset.range a₁.hiwaterMark + Multiset.range a.hiwaterMark :=
        add_right_comm _ _ _
    _ = tc₁.oids + a₁.freeOids + Multiset.range a.hiwaterMark + Multiset.range a₂.hiwaterMark := by
        rw [h₂.oids, add_right_comm]
    _ = tc.oids + a.freeOids + Multiset.range a₂.hiwaterMark + Multiset.range a₁.hiwaterMark := by
        rw [h₁.oids, add_right_comm]

theorem Inv.fillFromL1_spec (h : Inv a) (mem : Memory) (tc : ThreadCache) (target : ℕ) :
    Filled mem a tc (a.fillFromL1 tc target).1 (a.fillFromL1 tc target).2.1 ∧
      (a.fillFromL1 tc target).1.l2 = a.l2 ∧
      (a.fillFromL1 tc target).1.hiwaterMark = a.hiwaterMark ∧
      (a.fillFromL1 tc target).1.l1Size = a.l1Size - target ∧
      (a.fillFromL1 tc target).2.2 = target - a.l1Size ∧
      (a.fillFromL1 tc target).2.1.nentries + (target - a.l1Size) = tc.nentries + target := by
  rw [fillFromL1]
  dsimp only
  set n := min target a.l1Size with hn
  refine ⟨⟨⟨(Nat.sub_le _ _).trans h.l1_le, h.hiwater_lt, h.capacity_lt, h.l2⟩, ?_, id, rfl, rfl,
    le_rfl, le_max_left _ _, Nat.add_le_add_right (Nat.le_add_right _ _) _⟩, rfl, rfl,
    by omega, by omega, by omega⟩
  change seg (copy tc.entries tc.nentries a.l1 (a.l1Size - n) n) 0 (tc.nentries + n) +
    (seg a.l1 0 (a.l1Size - n) + a.l2Oids) + _ = _
  have hsub : seg a.l1 0 a.l1Size = _ := seg_sub a.l1 (min_le_right target a.l1Size)
  rw [seg_copy_append, freeOids, ThreadCache.oids, hsub, hn]
  abel

/-- How many OIDs there are in full bitsets. -/
def fullCount (a : Allocator) : ℕ := if a.l2.valid then 16 * a.l2.size else 0

theorem Inv.fillFromL2_spec (h : Inv a) (hr : Readable mem a) (tc : ThreadCache) (target : ℕ) :
    ∃ a' tc' left, a.fillFromL2 mem tc target = some (a', tc', left) ∧
      Filled mem a tc a' tc' ∧ a'.l1Size = a.l1Size ∧ a'.hiwaterMark = a.hiwaterMark ∧
      (a'.l2.valid ↔ a.l2.valid) ∧ (a.l2.valid → a'.l2.looseOids = a.l2.looseOids) ∧
      (tc'.nentries : ℤ) + left = tc.nentries + target ∧ left ≤ target ∧ -15 ≤ left ∧
      (target : ℤ) - a.fullCount ≤ left ∧ (0 < left → left = target - a.fullCount) := by
  rw [fillFromL2, fullCount]
  by_cases hc : ¬ a.l2.valid ∨ a.l2.size = 0
  · have hnone : (if a.l2.valid then 16 * a.l2.size else 0) = 0 := by
      obtain hv | h0 := hc
      · exact if_neg hv
      · rw [h0, ite_self]
    rw [hnone, if_pos hc]
    exact ⟨a, tc, target, rfl, h.filled_refl, rfl, rfl, Iff.rfl, fun _ => rfl, rfl, le_rfl,
      by omega, by simp, by simp⟩
  · have hv : a.l2.valid := not_not.mp (not_or.mp hc).1
    obtain ⟨l', xs, heq, hinv, hr', hmaps, hassigned, hlisted, hlen, hall⟩ :=
      L2.Inv.scan_spec (target : ℤ) (h.l2 hv) (hr hv)
    have hv' : l'.valid := hinv.first_pos.ne'
    have hcount := congrArg Multiset.card hlisted
    rw [Multiset.card_add, (h.l2 hv).card_listedOids, Multiset.coe_card] at hcount
    rw [if_neg hc, if_pos hv, heq]
    refine ⟨{ a with l2 := l' }, tc.append xs, (target : ℤ) - xs.length, rfl,
      ⟨⟨h.l1_le, h.hiwater_lt, h.capacity_lt, fun _ => hinv⟩, ?_, fun _ _ => hr', hmaps, rfl,
        le_rfl, le_max_left _ _, Nat.add_le_add_right (Nat.le_add_right _ _) _⟩,
      rfl, rfl, iff_of_true hv' hv, fun _ => ?_, ?_, by omega, by omega, by omega, fun hlt => ?_⟩
    · rw [ThreadCache.oids_append, freeOids, freeOids, l2Oids, l2Oids, if_pos hv', if_pos hv,
        hassigned, hlisted]
      abel
    · show l'.looseOids = _
      rw [hinv.loose, (h.l2 hv).loose, hassigned]
    · rw [ThreadCache.append]
      push_cast
      omega
    · have := hall (by omega)
      omega

/-- The bump allocator stops at the capacity. -/
theorem Inv.bump_spec (mem : Memory) : ∀ (target : ℕ) {a : Allocator} (tc : ThreadCache), Inv a →
    Filled mem a tc (bump target a tc).1 (bump target a tc).2.1 ∧
      (bump target a tc).1.l1Size = a.l1Size ∧ (bump target a tc).1.l2 = a.l2 ∧
      (bump target a tc).2.1.nentries + (bump target a tc).2.2 = tc.nentries + target ∧
      (bump target a tc).2.2 = target - (a.capacityMark - a.hiwaterMark) ∧
      ((bump target a tc).2.2 ≠ 0 → a.capacityMark ≤ (bump target a tc).1.hiwaterMark) := by
  intro target
  induction target with
  | zero =>
    intro a tc h
    exact ⟨h.filled_refl, rfl, rfl, rfl, (Nat.zero_sub _).symm, fun h0 => absurd rfl h0⟩
  | succ target ih =>
    intro a tc h
    rw [bump]
    by_cases hc : a.hiwaterMark < a.capacityMark
    · rw [if_pos hc]
      have hstep : Filled mem a tc { a with hiwaterMark := a.hiwaterMark + 1 }
          (tc.append [a.hiwaterMark]) := by
        have hcap := h.capacity_lt
        refine ⟨⟨h.l1_le, ?_, h.capacity_lt, h.l2⟩, ?_, id, rfl, rfl, Nat.le_succ _,
          le_max_of_le_right hc, ?_⟩
        · change a.hiwaterMark + 1 < 2 ^ 32
          omega
        · change _ + a.freeOids + _ = _ + _ + Multiset.range (a.hiwaterMark + 1)
          rw [ThreadCache.oids_append, Multiset.range_succ, Multiset.coe_singleton,
            ← Multiset.singleton_add]
          abel
        · change tc.nentries + (a.hiwaterMark + 1) ≤ tc.nentries + 1 + a.hiwaterMark
          omega
      obtain ⟨hfilled, hsize, hl2, hn, hleft, hend⟩ := ih (tc.append [a.hiwaterMark]) hstep.inv
      refine ⟨hstep.trans hfilled, hsize, hl2, hn.trans ?_, hleft.trans ?_, hend⟩
      · change tc.nentries + 1 + target = _
        omega
      · change target - (a.capacityMark - (a.hiwaterMark + 1)) = _
        omega
    · rw [if_neg hc]
      refine ⟨h.filled_refl, rfl, rfl, rfl, ?_, fun _ => not_lt.mp hc⟩
      change target + 1 = _
      omega

/-- A round of `fill_cache` that falls through to the bump allocator. -/
structure Bumped (a : Allocator) (tc : ThreadCache) (target : ℕ) (a' : Allocator)
    (tc' : ThreadCache) (left : ℕ) : Prop where
  l1 : a'.l1Size = 0
  valid : a'.l2.valid ↔ a.l2.valid
  loose : a'.l2.looseOids = a.l2.looseOids
  count : tc'.nentries + left = tc.nentries + target
  left_eq : left = target - (a.l1Size + a.fullCount + (a.capacityMark - a.hiwaterMark))
  atCapacity : left ≠ 0 → a.capacityMark ≤ a'.hiwaterMark

/-- A round ends the call if there are enough OIDs in L1 and in full bitsets. -/
theorem Inv.fillRound_spec (h : Inv a) (hr : Readable mem a) (tc : ThreadCache) {target : ℕ}
    (hpos : 0 < target) :
    (∃ a' tc', fillRound mem a tc target = some (a', tc', 0, true) ∧ Filled mem a tc a' tc' ∧
      target ≤ a.l1Size + a.fullCount ∧ tc.nentries + target ≤ tc'.nentries ∧
      tc'.nentries ≤ tc.nentries + target + 15) ∨
    ∃ a' tc' left, fillRound mem a tc target = some (a', tc', left, false) ∧
      Filled mem a tc a' tc' ∧ a.l1Size + a.fullCount < target ∧
      Bumped a tc target a' tc' left := by
  obtain ⟨hfill1, hl2, hhi1, hsize1, hleft1, hn1⟩ := h.fillFromL1_spec mem tc target
  rw [fillRound]
  generalize a.fillFromL1 tc target = r1 at *
  obtain ⟨a1, tc1, left1⟩ := r1
  dsimp only at hfill1 hl2 hhi1 hsize1 hleft1 hn1 ⊢
  by_cases hc1 : a.l1Size ≠ 0 ∧ left1 = 0
  · exact .inl ⟨a1, tc1, if_pos hc1, hfill1, by omega, by omega, by omega⟩
  rw [if_neg hc1]
  have hcap1 := hfill1.capacity
  have hfull1 : a1.fullCount = a.fullCount := by rw [fullCount, fullCount, hl2]
  obtain ⟨a2, tc2, left2, heq2, hfill2, hsize2, hhi2, hv2, hloose2, hn2, hle2, hlow2, htake2,
    hleft2⟩ := hfill1.inv.fillFromL2_spec (hfill1.readable hr) tc1 left1
  have hloose : a2.l2.looseOids = a.l2.looseOids := by
    by_cases hv : a1.l2.valid
    · rw [hloose2 hv, hl2]
    · rw [fillFromL2, if_pos (.inl hv)] at heq2
      cases heq2
      rw [hl2]
  have hcap2 := hfill2.capacity
  rw [heq2]
  simp only [Option.bind_eq_bind, Option.bind_some]
  by_cases hc2 : (a1.l2.valid ∧ a1.l2.size ≠ 0) ∧ left2 ≤ 0
  · exact .inl ⟨a2, tc2, if_pos hc2, hfill1.trans hfill2, by omega, by omega, by omega⟩
  rw [if_neg hc2]
  -- there is nothing left in L1 and in full bitsets
  have hpos2 : 0 < left2 := by
    by_contra hle
    have hnone : ¬ (a1.l2.valid ∧ a1.l2.size ≠ 0) := fun hv => hc2 ⟨hv, not_lt.mp hle⟩
    have hzero : a1.fullCount = 0 := by
      rw [fullCount]
      split
      next hv => rw [not_not.mp fun hne => hnone ⟨hv, hne⟩]
      next => rfl
    omega
  have hleft := hleft2 hpos2
  obtain ⟨hfill3, hsize3, hl23, hn3, hleft3, hend3⟩ :=
    Inv.bump_spec mem left2.toNat tc2 hfill2.inv
  generalize bump left2.toNat a2 tc2 = r3 at *
  obtain ⟨a3, tc3, left3⟩ := r3
  dsimp only at hfill3 hsize3 hl23 hn3 hleft3 hend3 ⊢
  refine .inr ⟨a3, tc3, left3, rfl, (hfill1.trans hfill2).trans hfill3, by omega,
    ⟨by omega, ?_, ?_, by omega, by omega, fun hne => ?_⟩⟩
  · rw [hl23, hv2, hl2]
  · rw [hl23, hloose]
  · have := hend3 hne
    omega

/-- A round that is filled from L1 alone. -/
theorem fillRound_of_l1 (tc : ThreadCache) {target : ℕ} (hne : a.l1Size ≠ 0)
    (hle : target ≤ a.l1Size) :
    fillRound mem a tc target =
      some ((a.fillFromL1 tc target).1, (a.fillFromL1 tc target).2.1, 0, true) := by
  have hleft : (a.fillFromL1 tc target).2.2 = 0 := by
    rw [fillFromL1]
    dsimp only
    omega
  rw [fillRound]
  dsimp only
  rw [if_pos ⟨hne, hleft⟩]
  rfl

/-- L2 has enough loose OIDs to be scavenged. -/
def Scavengeable (a : Allocator) : Prop := a.l2.valid ∧ L1_CAPACITY / 2 ≤ a.l2.looseOids

instance (a : Allocator) : Decidable a.Scavengeable := inferInstanceAs (Decidable (_ ∧ _))

/-- `_scavenge_l2`, called with an empty L1. -/
theorem Inv.scavengeL2_spec (h : Inv a) (hr : Readable mem a) (hsize : a.l1Size = 0)
    (tc : ThreadCache) :
    ∃ a' left, a.scavengeL2 mem (L1_CAPACITY / 2) = some (a', left) ∧ Filled mem a tc a' tc ∧
      (a.Scavengeable → L1_CAPACITY / 2 ≤ a'.l1Size ∧ left ≤ 0) ∧
      (¬ a.Scavengeable → a' = a) := by
  rw [scavengeL2]
  by_cases hc : ¬ a.l2.valid ∨ a.l2.looseOids < L1_CAPACITY / 2
  · refine ⟨a, _, if_pos hc, h.filled_refl, fun hs => ?_, fun _ => rfl⟩
    exact absurd hs.1 (hc.resolve_right (not_lt.mpr hs.2))
  · have hv : a.l2.valid := not_not.mp (not_or.mp hc).1
    have hle := Nat.le_of_not_lt (not_or.mp hc).2
    obtain ⟨l', xs, heq, hinv, hr', hmaps, hoids, hle', hlen⟩ :=
      (h.l2 hv).scavenge_spec (hr hv) hle
    have hv' : l'.valid := hinv.first_pos.ne'
    rw [if_neg hc, heq]
    refine ⟨{ a with l2 := l', l1Size := a.l1Size + xs.length, l1 := put a.l1 a.l1Size xs }, _, rfl,
      ⟨⟨?_, h.hiwater_lt, h.capacity_lt, fun _ => hinv⟩, ?_, fun _ _ => hr', hmaps, rfl, le_rfl,
        le_max_left _ _, le_rfl⟩, fun _ => ⟨?_, by omega⟩, fun hs => absurd ⟨hv, hle⟩ hs⟩
    · change a.l1Size + xs.length ≤ L1_CAPACITY
      rw [L1_CAPACITY] at hlen ⊢
      omega
    · rw [freeOids, freeOids, l2Oids, l2Oids, if_pos hv', if_pos hv, hoids, seg_put]
      abel
    · change _ ≤ a.l1Size + xs.length
      omega

/-- `fill_cache` cannot reach its target: there are not enough OIDs in L1, in full bitsets
and below the capacity, and scavenging L2 is not worthwhile or does not find enough. -/
def Short (a : Allocator) (l3Loose target : ℕ) : Prop :=
  a.l1Size + a.fullCount + (a.capacityMark - a.hiwaterMark) < target ∧
    ¬ (a.wantsScavenge l3Loose = true ∧ a.Scavengeable)

instance (a : Allocator) (l3Loose target : ℕ) : Decidable (a.Short l3Loose target) :=
  inferInstanceAs (Decidable (_ ∧ _))

/-- What a call of `fill_cache` returns. -/
structure FillResult (mem : Memory) (a : Allocator) (l3Loose target : ℕ) (tc : ThreadCache)
    (a' : Allocator) (tc' : ThreadCache) (full : Bool) : Prop where
  filled : Filled mem a tc a' tc'
  le : tc'.nentries ≤ tc.nentries + target + 15
  ge : full = true → tc.nentries + target ≤ tc'.nentries
  lt : full = false → tc'.nentries < tc.nentries + target
  full_iff : full = false ↔ a.Short l3Loose target
  atCapacity : full = false → a.capacityMark ≤ a'.hiwaterMark

section Loop

variable {σ : Type} (loose : σ → ℕ) (rest : Allocator → σ → ℤ → Option (Allocator × σ)) (l3 : σ)

/-- A call that leaves L3 alone returns after at most one round of scavenging, since that
puts more OIDs to L1 than the cache can take. -/
theorem Inv.fillLoop_spec (h : Inv a) (tc : ThreadCache) {target : ℕ}
    (hr : a.l1Size < target → Readable mem a) (hpos : 0 < target) (htarget : target ≤ FILL_TARGET)
    (hrest : a.l1Size + a.fullCount < target → a.wantsScavenge (loose l3) = true →
      ∀ u left, (a.Scavengeable → left ≤ 0) → rest u l3 left = some (u, l3)) (n : ℕ) :
    ∃ a' tc' full, fillLoop loose rest mem (n + 2) a l3 tc target = some (a', l3, tc', full) ∧
      FillResult mem a (loose l3) target tc a' tc' full := by
  by_cases hl1 : target ≤ a.l1Size
  · -- L1 has enough
    obtain ⟨hfilled, -, -, -, -, hn⟩ := h.fillFromL1_spec mem tc target
    refine ⟨_, _, true, ?_, ⟨hfilled, by omega, fun _ => by omega, nofun,
      iff_of_false nofun fun hs => ?_, nofun⟩⟩
    · rw [fillLoop, fillRound_of_l1 tc (by omega) hl1]
      rfl
    · have := hs.1
      omega
  have hread := hr (not_le.mp hl1)
  obtain ⟨a', tc', heq, hfilled, hle, hge, hle'⟩ | ⟨a3, tc3, left3, heq, hfill3, hlt, hb⟩ :=
    h.fillRound_spec hread tc hpos
  · refine ⟨a', tc', true, ?_, ⟨hfilled, hle', fun _ => hge, nofun,
      iff_of_false nofun fun hs => ?_, nofun⟩⟩
    · rw [fillLoop, heq]
      rfl
    · have := hs.1
      omega
  have hcap := hfill3.capacity
  have hcount := hb.count
  have hleft := hb.left_eq
  have hwants : a3.wantsScavenge (loose l3) = a.wantsScavenge (loose l3) := by
    rw [wantsScavenge, wantsScavenge, proposeCapacity, proposeCapacity, hcap, hb.loose]
  have hscav : a3.Scavengeable ↔ a.Scavengeable := by
    rw [Scavengeable, Scavengeable, hb.valid, hb.loose]
  -- what is returned if nothing is scavenged
  have hend : ¬ (a.wantsScavenge (loose l3) = true ∧ a.Scavengeable) →
      FillResult mem a (loose l3) target tc a3 tc3 (decide (left3 = 0)) := by
    intro hns
    refine ⟨hfill3, by omega, fun hf => ?_, fun hf => ?_, ?_, fun hf => ?_⟩
    · have := of_decide_eq_true hf
      omega
    · have := of_decide_eq_false hf
      omega
    · rw [decide_eq_false_iff_not, Short]
      exact ⟨fun hne => ⟨by omega, hns⟩, fun hs => by have := hs.1; omega⟩
    · exact hb.atCapacity (of_decide_eq_false hf)
  rw [fillLoop, heq, Option.bind_eq_bind, Option.bind_some]
  dsimp only
  rw [if_neg Bool.false_ne_true]
  by_cases hw : a3.wantsScavenge (loose l3) = true
  · rw [if_pos hw]
    rw [hwants] at hw
    obtain ⟨a4, left4, heq4, hfill4, hyes, hno⟩ :=
      hfill3.inv.scavengeL2_spec (hfill3.readable hread) hb.l1 tc3
    rw [heq4, Option.bind_eq_bind, Option.bind_some]
    dsimp only
    rw [hrest hlt hw a4 left4 fun hs => (hyes (hscav.mpr hs)).2, Option.bind_eq_bind,
      Option.bind_some]
    dsimp only
    by_cases hs : a.Scavengeable
    · have hroom := (hyes (hscav.mpr hs)).1
      rw [FILL_TARGET] at htarget
      rw [L1_CAPACITY] at hroom
      obtain ⟨hfill5, -, -, -, -, hn5⟩ := hfill4.inv.fillFromL1_spec mem tc3 left3
      have hne : a4.l1Size ≠ 0 := by omega
      rw [if_pos hne, fillLoop, fillRound_of_l1 tc3 hne (by omega)]
      exact ⟨_, _, true, rfl, (hfill3.trans hfill4).trans hfill5, by omega, fun _ => by omega,
        nofun,
        iff_of_false nofun fun hshort => hshort.2 ⟨hw, hs⟩, nofun⟩
    · obtain rfl := hno (mt hscav.mp hs)
      rw [if_neg (not_not.mpr hb.l1)]
      exact ⟨_, _, _, rfl, hend fun hc => hs hc.2⟩
  · rw [if_neg hw]
    exact ⟨_, _, _, rfl, hend fun hc => hw (hwants ▸ hc.1)⟩

end Loop

/-- The target of `fill_cache`. -/
theorem fillTarget_eq (hn : tc.nentries ≤ 110) : fillTarget tc = min 64 (110 - tc.nentries) := by
  have hspace : tc.spaceRemaining = 126 - tc.nentries :=
    usub_eq (hn.trans (by norm_num [CACHE_N])) (by norm_num [CACHE_N])
  have hroom : usub 64 (126 - tc.nentries) 16 = 126 - tc.nentries - 16 :=
    usub_eq (by omega) (by omega)
  rw [fillTarget, hspace, SparseBitset.CAPACITY, hroom, FILL_TARGET, Nat.sub_right_comm]

theorem FillResult.nentries {l3Loose : ℕ} {a' : Allocator} {tc' : ThreadCache} {full : Bool}
    (h : FillResult mem a l3Loose (min 64 (110 - tc.nentries)) tc a' tc' full)
    (hn : tc.nentries < 110) :
    tc'.nentries ≤ 125 ∧ (full = false → tc'.nentries < 110) := by
  have hle := h.le
  refine ⟨by omega, fun hf => ?_⟩
  have := h.lt hf
  omega

/-- `fill_cache` returns, for a cache with room for its target and another bitset. -/
theorem Inv.fillCache_spec (h : Inv a)
    (hr : a.l1Size < min 64 (110 - tc.nentries) → Readable mem a) (hn : tc.nentries < 110) :
    ∃ a' tc' full, a.fillCache mem tc = some (a', tc', full) ∧
      FillResult mem a l3LooseOids (min 64 (110 - tc.nentries)) tc a' tc' full := by
  obtain ⟨a', tc', full, heq, hres⟩ := h.fillLoop_spec (fun _ => l3LooseOids)
    (fun a l3 _ => some (a, l3)) () tc hr (by omega) (min_le_left _ _) (fun _ _ _ _ _ => rfl)
    FILL_TARGET
  refine ⟨a', tc', full, ?_, hres⟩
  rw [fillCache, fillTarget_eq hn.le, heq]
  rfl

end Fill

end Allocator

namespace OidSystem

variable {ι : Type*} [Fintype ι] {s s' : OidSystem ι}

/-- Where OIDs are: held by the application, in a cache, in L1 or in L2. -/
def places (s : OidSystem ι) : Multiset ℕ :=
  s.held + ∑ c, (s.cache c).oids + s.alloc.freeOids

/-- A cache is not drained below empty, and a call that goes past L1 can read the
bitsets of L2. -/
def Ok (s : OidSystem ι) : OidAct ι → Prop
  | .fill c mem => s.alloc.l1Size < min 64 (110 - (s.cache c).nentries) → s.alloc.Readable mem
  | .drain c target => target ≤ (s.cache c).nentries
  | _ => True

structure Inv (s : OidSystem ι) : Prop where
  alloc : s.alloc.Inv
  caches : ∀ c, (s.cache c).nentries ≤ CACHE_N
  incomplete : ∀ c, s.incomplete c = true → (s.cache c).nentries < 110
  partition : s.places = Multiset.range s.alloc.hiwaterMark

theorem inv_init {hiwater : ℕ} (hhi : hiwater < 2 ^ 32) (l1 : ℕ → ℕ) (l2 : L2)
    (entries : ι → ℕ → ℕ) : Inv (init hiwater l1 l2 entries) := by
  refine ⟨⟨Nat.zero_le _, hhi, by norm_num [init], fun hv => absurd rfl hv⟩,
    fun _ => Nat.zero_le _, nofun, ?_⟩
  have hcaches : ∑ c, ((init hiwater l1 l2 entries).cache c).oids = 0 :=
    Finset.sum_eq_zero fun _ _ => rfl
  rw [places, hcaches, add_zero]
  exact add_zero _

theorem Inv.free_le (h : Inv s) : s.alloc.freeOids ≤ Multiset.range s.alloc.hiwaterMark :=
  h.partition ▸ Multiset.le_add_left _ _

/-- A cache is filled when it is empty or has been filled incompletely. -/
theorem Inv.fill_room (h : Inv s) {c : ι} (hc : (s.cache c).nentries = 0 ∨ s.incomplete c) :
    (s.cache c).nentries < 110 :=
  hc.elim (fun h0 => by omega) (h.incomplete c)

/-- An OID that is handed out is not held by the application. -/
theorem Inv.allocate_fresh (h : Inv s) {c : ι} (hne : (s.cache c).nentries ≠ 0) :
    (s.cache c).entries ((s.cache c).nentries - 1) ∉ s.held := by
  intro hmem
  have hnodup : s.places.Nodup := h.partition ▸ Multiset.nodup_range _
  have hdisj := (Multiset.nodup_add.mp (Multiset.nodup_add.mp hnodup).1).2.2
  have hle : (s.cache c).oids ≤ ∑ i, (s.cache i).oids :=
    Finset.single_le_sum (fun _ _ => Multiset.zero_le _) (Finset.mem_univ c)
  refine Multiset.disjoint_left.mp hdisj hmem (Multiset.mem_of_le hle ?_)
  exact mem_seg.mpr ⟨(s.cache c).nentries - 1, by omega, by rw [Nat.zero_add]⟩

/-- There are not more OIDs in L1 than have been handed out. -/
theorem l1_le_hiwater (h : s.places = Multiset.range s.alloc.hiwaterMark) :
    s.alloc.l1Size ≤ s.alloc.hiwaterMark := by
  have hcard := congrArg Multiset.card h
  rw [places, Allocator.freeOids, Multiset.card_add, Multiset.card_add, Multiset.card_add,
    card_seg, Multiset.card_range] at hcard
  omega

variable [DecidableEq ι]

theorem sum_setCache (s : OidSystem ι) (c : ι) (tc : ThreadCache) :
    ∑ i, (Function.update s.cache c tc i).oids + (s.cache c).oids =
      ∑ i, (s.cache i).oids + tc.oids := by
  have hswap := sum_swap (f := fun i => (s.cache i).oids)
    (g := fun i => (Function.update s.cache c tc i).oids) (Finset.mem_univ c)
    fun i _ hne => by rw [update_of_ne hne]
  rwa [update_self] at hswap

/-- A call that moves OIDs between the application, one cache and the allocator. -/
theorem Inv.move (h : Inv s) {c : ι} {a : Allocator} {tc : ThreadCache} {b : Bool}
    {held : Multiset ℕ} (ha : a.Inv) (hn : tc.nentries ≤ CACHE_N)
    (hb : b = true → tc.nentries < 110)
    (hoids : held + tc.oids + a.freeOids + Multiset.range s.alloc.hiwaterMark =
      s.held + (s.cache c).oids + s.alloc.freeOids + Multiset.range a.hiwaterMark) :
    Inv { s.setCache c tc b with alloc := a, held := held } := by
  refine ⟨ha, fun i => ?_, fun i => ?_, ?_⟩
  · change (Function.update s.cache c tc i).nentries ≤ CACHE_N
    by_cases hi : i = c
    · rw [hi, update_self]
      exact hn
    · rw [update_of_ne hi]
      exact h.caches i
  · change Function.update s.incomplete c b i = true →
      (Function.update s.cache c tc i).nentries < 110
    by_cases hi : i = c
    · rw [hi, update_self, update_self]
      exact hb
    · rw [update_of_ne hi, update_of_ne hi]
      exact h.incomplete i
  · change held + ∑ i, (Function.update s.cache c tc i).oids + a.freeOids =
      Multiset.range a.hiwaterMark
    have hsum := s.sum_setCache c tc
    have hpart := h.partition
    rw [places] at hpart
    refine add_right_cancel
      (b := (s.cache c).oids + (s.held + ∑ i, (s.cache i).oids + s.alloc.freeOids)) ?_
    calc held + ∑ i, (Function.update s.cache c tc i).oids + a.freeOids +
          ((s.cache c).oids + (s.held + ∑ i, (s.cache i).oids + s.alloc.freeOids))
        = ∑ i, (Function.update s.cache c tc i).oids + (s.cache c).oids +
            (held + a.freeOids + Multiset.range s.alloc.hiwaterMark) := by
          rw [hpart]
          abel
      _ = ∑ i, (s.cache i).oids +
            (held + tc.oids + a.freeOids + Multiset.range s.alloc.hiwaterMark) := by
          rw [hsum]
          abel
      _ = Multiset.range a.hiwaterMark +
            ((s.cache c).oids + (s.held + ∑ i, (s.cache i).oids + s.alloc.freeOids)) := by
          rw [hoids]
          abel

theorem Inv.step (h : Inv s) {x : OidAct ι} (hok : s.Ok x) (hs : s.step x = some s') : Inv s' := by
  cases x with
  | fill c mem =>
    obtain ⟨hc, hs⟩ := Option.ite_none_right_eq_some.mp hs
    have hroom := h.fill_room hc
    obtain ⟨a', tc', full, heq, hres⟩ := h.alloc.fillCache_spec hok hroom
    rw [heq] at hs
    cases hs
    obtain ⟨hle, hlt⟩ := hres.nentries hroom
    refine h.move hres.filled.inv (hle.trans (by norm_num [CACHE_N])) (fun hb => hlt ?_) ?_
    · simpa using hb
    · have hoids := hres.filled.oids
      calc s.held + tc'.oids + a'.freeOids + Multiset.range s.alloc.hiwaterMark
          = s.held + (tc'.oids + a'.freeOids + Multiset.range s.alloc.hiwaterMark) := by abel
        _ = _ := by
          rw [hoids]
          abel
  | drain c target =>
    cases hs
    have hlt : ∀ o ∈ s.alloc.freeOids, o < 2 ^ 32 := fun o ho =>
      (Multiset.mem_range.mp (Multiset.mem_of_le h.free_le ho)).trans h.alloc.hiwater_lt
    obtain ⟨hinv, hoids, hhi, hn⟩ := h.alloc.drainCache_spec (h.caches c) hlt
      (Multiset.nodup_of_le h.free_le (Multiset.nodup_range _)) hok
    refine h.move hinv (hn.trans (h.caches c)) nofun ?_
    change s.held + _ + _ + _ = _
    rw [hhi, add_assoc s.held, hoids]
    abel
  | allocate c =>
    rw [OidSystem.step] at hs
    dsimp only at hs
    obtain ⟨hne, hs⟩ := Option.ite_none_left_eq_some.mp hs
    cases hs
    obtain ⟨n, hn⟩ : ∃ n, (s.cache c).nentries = n + 1 := Nat.exists_eq_succ_of_ne_zero hne
    have hlive := h.caches c
    refine h.move h.alloc ((Nat.sub_le _ _).trans hlive) nofun ?_
    rw [ThreadCache.oids, ThreadCache.oids, hn, Nat.add_sub_cancel, seg_snoc, Nat.zero_add,
      Multiset.cons_add, Multiset.add_cons]
    rfl
  | free c o =>
    obtain ⟨⟨hmem, hlt⟩, hs⟩ := Option.ite_none_right_eq_some.mp hs
    cases hs
    refine h.move h.alloc hlt nofun ?_
    rw [ThreadCache.oids_append, Multiset.coe_singleton]
    conv_rhs => rw [← Multiset.cons_erase hmem, ← Multiset.singleton_add]
    abel
  | raise capacity =>
    obtain ⟨hcap, hs⟩ := Option.ite_none_right_eq_some.mp hs
    cases hs
    exact ⟨⟨h.alloc.l1_le, h.alloc.hiwater_lt, hcap.2, h.alloc.l2⟩, h.caches, h.incomplete,
      h.partition⟩

/-- After every run each OID below the high water mark is in one place and no other
OID is in any; the bitmap numbers are used once each; an OID that is handed out is
not held, and `fill_cache` returns. -/
theorem oid_partition {hiwater : ℕ} {l1 : ℕ → ℕ} {l2 : L2} {entries : ι → ℕ → ℕ}
    {as : List (OidAct ι)} (hhi : hiwater < 2 ^ 32)
    (hok : Along step Ok (init hiwater l1 l2 entries) as)
    (hrun : run step (init hiwater l1 l2 entries) as = some s) :
    s.places = Multiset.range s.alloc.hiwaterMark ∧
      (s.alloc.l2.valid → s.alloc.l2.Inv) ∧
      (∀ c, (s.cache c).nentries ≤ CACHE_N) ∧ s.alloc.l1Size ≤ L1_CAPACITY ∧
      (∀ c s', s.step (.allocate c) = some s' → ∃ o ∉ s.held, s'.held = o ::ₘ s.held) ∧
      ∀ c mem, (s.cache c).nentries = 0 ∨ s.incomplete c → s.Ok (.fill c mem) →
        ∃ s', s.step (.fill c mem) = some s' := by
  have h : Inv s := run_invariant_along (fun hok hs hi => Inv.step hi hok hs) hok hrun
    (inv_init hhi l1 l2 entries)
  refine ⟨h.partition, h.alloc.l2, h.caches, h.alloc.l1_le, fun c s' hs => ?_,
    fun c mem hc hfill => ?_⟩
  · rw [step] at hs
    dsimp only at hs
    obtain ⟨hne, hs⟩ := Option.ite_none_left_eq_some.mp hs
    cases hs
    exact ⟨_, h.allocate_fresh hne, rfl⟩
  · obtain ⟨a', tc', full, heq, -⟩ := h.alloc.fillCache_spec hfill (h.fill_room hc)
    rw [step, if_pos hc, heq]
    exact ⟨_, rfl⟩

/-- A thread fills its cache, takes an OID, gives it back and drains the cache. -/
theorem oid_partition_returned : ∃ s : OidSystem Unit,
    run step (init 0 id ⟨0, 0, 0, 0, id, id, fun _ => .init1 0⟩ fun _ => id)
        [.fill () fun _ => none, .allocate (), .free () 63, .drain () 0] = some s ∧
      s.places = Multiset.range s.alloc.hiwaterMark := by
  obtain ⟨s, hs⟩ : ∃ s : OidSystem Unit,
      run step (init 0 id ⟨0, 0, 0, 0, id, id, fun _ => .init1 0⟩ fun _ => id)
        [.fill () fun _ => none, .allocate (), .free () 63, .drain () 0] = some s :=
    Option.isSome_iff_exists.mp (by decide +kernel)
  refine ⟨s, hs, (oid_partition (by norm_num) ?_ hs).1⟩
  exact ⟨fun _ hv => absurd rfl hv, fun _ _ => ⟨trivial, fun _ _ => ⟨trivial, fun _ _ =>
    ⟨Nat.zero_le _, fun _ _ => trivial⟩⟩⟩⟩

/-- One OID is drained from an empty cache. -/
theorem drained_below_empty : ∃ s : OidSystem Unit,
    run step (init 0 id ⟨0, 0, 0, 0, id, id, fun _ => .init1 0⟩ fun _ => id)
        [.drain () 1] = some s ∧
      s.places ≠ Multiset.range s.alloc.hiwaterMark := by
  refine ⟨_, rfl, fun heq => ?_⟩
  have hle : 1 ≤ 0 := l1_le_hiwater heq
  exact Nat.not_succ_le_zero 0 hle

end OidSystem

end PreemptDB
