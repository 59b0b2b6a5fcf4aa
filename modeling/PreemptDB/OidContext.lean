/-
Allocation of an OID by a thread (`context_allocate` in `sm-oid.cpp`).

An empty cache is filled; if the allocator cannot fill it, its capacity is set to
what `propose_capacity` returns and the cache is filled again.  The proposal is
5/4 of the capacity, computed in 32 bits, and it is not checked.

* `Allocator.proposeCapacityBy` — `propose_capacity` for any alignment;
* `Allocator.contextAllocate` — the call, for a file and the cache of a thread;
* `Allocator.NeedsGrowth` — the first call of `fill_cache` will not do;
* `oid_growth` — when both do what they are meant to do.
-/
import Mathlib.Data.Nat.ModEq
import PreemptDB.OidPartition

namespace PreemptDB

open Function Segment

/-- `MAX_CAPACITY_MARK` -/
def MAX_CAPACITY_MARK : ℕ := 2 ^ 32 - 2

/-- `entries[--nentries]`; `none` if the index is not in the array. -/
def ThreadCache.take (tc : ThreadCache) : Option ℕ × ThreadCache :=
  (if usub 32 tc.nentries 1 < CACHE_N then some (tc.entries (usub 32 tc.nentries 1)) else none,
    ⟨usub 32 tc.nentries 1, tc.entries⟩)

namespace Allocator

/-- `propose_capacity(align)`.  The product is one of 32 bits; the difference and
`align_down` are of 64 bits, and the result is cut to 32. -/
def proposeCapacityBy (a : Allocator) (align : ℕ) : ℕ :=
  let pc := min (5 * a.capacityMark % 2 ^ 32 / 4) MAX_CAPACITY_MARK
  let delta := usub 64 pc a.capacityMark &&& usub 64 0 align
  if delta = 0 then 0 else (a.capacityMark + delta) % 2 ^ 32

/-- What `recreate_allocator` does to an allocator. -/
def recreate (a : Allocator) (m : ℕ) : Allocator :=
  if m = 0 ∨ m ≤ a.capacityMark ∧ m ≤ a.hiwaterMark then a
  else { a with capacityMark := (m + 64) % 2 ^ 32, hiwaterMark := (m + 64) % 2 ^ 32 }

/-- `context_allocate` finds an empty cache. -/
def contextFill (mem : Memory) (a : Allocator) (tc : ThreadCache) :
    Option (Allocator × ThreadCache) := do
  let (a1, tc1, full) ← a.fillCache mem tc
  if full then return (a1, tc1)
  -- neither the proposal nor the second result is checked
  let (a2, tc2, _) ← { a1 with capacityMark := a1.proposeCapacity }.fillCache mem tc1
  return (a2, tc2)

/-- `context_allocate`, with the OID that it returns. -/
def contextAllocate (mem : Memory) (a : Allocator) (tc : ThreadCache) :
    Option (Allocator × ThreadCache × Option ℕ) :=
  (if tc.nentries = 0 then a.contextFill mem tc else some (a, tc)).map fun r =>
    (r.1, r.2.take.2, r.2.take.1)

/-- The cache is empty, and there are not enough OIDs to fill it. -/
def NeedsGrowth (a : Allocator) (tc : ThreadCache) : Prop :=
  tc.nentries = 0 ∧ a.Short l3LooseOids FILL_TARGET

/-- A call that goes past L1 can read the bitsets of L2. -/
def CanRead (mem : Memory) (a : Allocator) (tc : ThreadCache) : Prop :=
  tc.nentries = 0 → a.l1Size < FILL_TARGET → a.Readable mem

/-- A proposal is 0, or it is above the capacity by a multiple of the alignment. -/
def ProposesWell (a : Allocator) (align : ℕ) : Prop :=
  a.proposeCapacityBy align = 0 ∨
    a.capacityMark < a.proposeCapacityBy align ∧ a.proposeCapacityBy align ≤ MAX_CAPACITY_MARK ∧
      a.proposeCapacityBy align ≡ a.capacityMark [MOD align]

instance (a : Allocator) (align : ℕ) : Decidable (a.ProposesWell align) :=
  inferInstanceAs (Decidable (_ ∨ _ ∧ _ ∧ _))

section Propose

variable {a : Allocator}

/-- The bound `MAX_CAPACITY_MARK` is never in effect. -/
theorem min_proposal (n : ℕ) :
    min (5 * n % 2 ^ 32 / 4) MAX_CAPACITY_MARK = 5 * n % 2 ^ 32 / 4 := by
  rw [MAX_CAPACITY_MARK]
  omega

theorem usub_zero {n : ℕ} (h0 : 0 < n) (hn : n < 2 ^ 64) : usub 64 0 n = 2 ^ 64 - n := by
  rw [usub]
  omega

/-- `propose_capacity(1)` as it is used in `fill_cache`. -/
theorem proposeCapacityBy_one (ha : a.capacityMark < 2 ^ 32) :
    a.proposeCapacityBy 1 = a.proposeCapacity := by
  have hmask : usub 64 0 1 = 2 ^ 64 - 1 := rfl
  have hpc := min_proposal a.capacityMark
  rw [proposeCapacityBy, hpc, hmask, Nat.and_two_pow_sub_one_eq_mod]
  rw [MAX_CAPACITY_MARK] at hpc
  rw [proposeCapacity, hpc]
  generalize 5 * a.capacityMark % 2 ^ 32 / 4 = pc at hpc ⊢
  obtain ⟨d, hd⟩ : ∃ d, d = usub 64 pc a.capacityMark := ⟨_, rfl⟩
  rw [← hd]
  rw [usub] at hd
  by_cases heq : pc = a.capacityMark
  · rw [if_pos (by omega), if_pos heq]
  · rw [if_neg (by omega), if_neg heq]
    omega

/-- Without overflow the capacity grows by what the mask leaves of a quarter of it. -/
theorem proposeCapacityBy_eq (ha : 5 * a.capacityMark < 2 ^ 32) {align : ℕ} (h0 : 0 < align)
    (hlt : align < 2 ^ 64) :
    ∃ delta, delta = (5 * a.capacityMark / 4 - a.capacityMark) &&& (2 ^ 64 - align) ∧
      delta ≤ a.capacityMark / 4 ∧
      a.proposeCapacityBy align = if delta = 0 then 0 else a.capacityMark + delta := by
  have hle : (5 * a.capacityMark / 4 - a.capacityMark) &&& (2 ^ 64 - align) ≤
      5 * a.capacityMark / 4 - a.capacityMark := Nat.and_le_left
  refine ⟨_, rfl, by omega, ?_⟩
  have hsub : usub 64 (5 * a.capacityMark / 4) a.capacityMark =
      5 * a.capacityMark / 4 - a.capacityMark := by
    rw [usub]
    omega
  rw [proposeCapacityBy, min_proposal, Nat.mod_eq_of_lt ha, usub_zero h0 hlt, hsub]
  split
  · rfl
  · exact Nat.mod_eq_of_lt (by omega)

theorem proposesWell_iff (ha : 5 * a.capacityMark < 2 ^ 32) {align : ℕ} (h0 : 0 < align)
    (hlt : align < 2 ^ 64) :
    a.ProposesWell align ↔
      align ∣ (5 * a.capacityMark / 4 - a.capacityMark) &&& (2 ^ 64 - align) := by
  obtain ⟨delta, hdelta, hle, heq⟩ := proposeCapacityBy_eq ha h0 hlt
  rw [ProposesWell, heq, ← hdelta]
  by_cases hd : delta = 0
  · simp [hd]
  · have hmod : a.capacityMark + delta ≡ a.capacityMark [MOD align] ↔ align ∣ delta := by
      rw [Nat.ModEq.comm, Nat.modEq_iff_dvd' (Nat.le_add_right _ _), Nat.add_sub_cancel_left]
    rw [if_neg hd, hmod, MAX_CAPACITY_MARK]
    constructor
    · rintro (h | ⟨-, -, h⟩)
      · omega
      · exact h
    · intro h
      exact .inr ⟨by omega, by omega, h⟩

/-- A mask of a power of two leaves a multiple of it. -/
theorem dvd_and_mask (x k : ℕ) (hk : k < 64) : 2 ^ k ∣ x &&& (2 ^ 64 - 2 ^ k) := by
  have hmask : (2 ^ 64 - 2 ^ k) % 2 ^ k = 0 :=
    Nat.mod_eq_zero_of_dvd (Nat.dvd_sub (pow_dvd_pow 2 hk.le) dvd_rfl)
  refine Nat.dvd_of_mod_eq_zero ?_
  rw [Nat.and_mod_two_pow, hmask, Nat.and_zero]

/-- Past 2³² the product wraps, and a quarter of it is below the capacity. -/
theorem wrapped_lt {n : ℕ} (hover : 2 ^ 32 ≤ 5 * n) :
    5 * n % 2 ^ 32 / 4 < n := by
  have hsplit := Nat.div_add_mod (5 * n) (2 ^ 32)
  have hq : 1 ≤ 5 * n / 2 ^ 32 := (Nat.one_le_div_iff (by norm_num)).mpr hover
  omega

theorem proposeCapacity_of_wrapped (hover : 2 ^ 32 ≤ 5 * a.capacityMark) :
    a.proposeCapacity = 5 * a.capacityMark % 2 ^ 32 / 4 := by
  have hlt := wrapped_lt hover
  have hmax := min_proposal a.capacityMark
  rw [MAX_CAPACITY_MARK] at hmax
  rw [proposeCapacity, hmax, if_neg hlt.ne]

theorem proposeCapacity_eq (ha : 5 * a.capacityMark < 2 ^ 32) (hfour : 4 ≤ a.capacityMark) :
    a.proposeCapacity = 5 * a.capacityMark / 4 := by
  rw [proposeCapacity, Nat.mod_eq_of_lt ha]
  split <;> omega

/-- Past 2³² a proposal is right only if it happens to be 0. -/
theorem proposesWell_one_iff (ha : a.capacityMark < 2 ^ 32) :
    a.ProposesWell 1 ↔ 5 * a.capacityMark < 2 ^ 32 ∨ 5 * a.capacityMark % 2 ^ 32 < 4 := by
  by_cases hover : 5 * a.capacityMark < 2 ^ 32
  · have hwell := (proposesWell_iff hover one_pos (by norm_num)).mpr (one_dvd _)
    exact ⟨fun _ => .inl hover, fun _ => hwell⟩
  · have hlt := wrapped_lt (n := a.capacityMark) (by omega)
    rw [ProposesWell, proposeCapacityBy_one ha, proposeCapacity_of_wrapped (by omega)]
    constructor
    · rintro (h | ⟨h, -⟩)
      · exact .inr (by omega)
      · omega
    · rintro (h | h)
      · exact absurd h hover
      · exact .inl (by omega)

end Propose

end Allocator

namespace OidSystem

variable {ι : Type*} [DecidableEq ι]

/-- `context_allocate` by thread `c`. -/
def contextAllocate (s : OidSystem ι) (c : ι) (mem : Memory) : Option (OidSystem ι × Option ℕ) :=
  (s.alloc.contextAllocate mem (s.cache c)).map fun r =>
    ({ s.setCache c r.2.1 false with
        alloc := r.1
        held := r.2.2.elim s.held (· ::ₘ s.held) }, r.2.2)

/-- The OID was not live, and the capacity is not below the high water mark. -/
def AllocatesWell (s s' : OidSystem ι) (o : Option ℕ) : Prop :=
  (∃ x ∉ s.held, o = some x) ∧ s'.alloc.hiwaterMark ≤ s'.alloc.capacityMark

/-- There is no overflow, and a quarter of the capacity is not 0. -/
def CanGrow (s : OidSystem ι) : Prop :=
  4 ≤ s.alloc.capacityMark ∧ 5 * s.alloc.capacityMark < 2 ^ 32

variable {s : OidSystem ι} {c : ι} {mem : Memory}

theorem contextAllocate_eq {a : Allocator} {tc : ThreadCache}
    (h : (if (s.cache c).nentries = 0 then s.alloc.contextFill mem (s.cache c)
      else some (s.alloc, s.cache c)) = some (a, tc)) :
    s.contextAllocate c mem = some ({ s.setCache c tc.take.2 false with
      alloc := a, held := tc.take.1.elim s.held (· ::ₘ s.held) }, tc.take.1) := by
  rw [contextAllocate, Allocator.contextAllocate, h, Option.map_some, Option.map_some]

variable [Fintype ι]

omit [DecidableEq ι] in
theorem Inv.setCapacity (h : Inv s) {n : ℕ} (hn : n < 2 ^ 32) :
    Inv { s with alloc := { s.alloc with capacityMark := n } } :=
  ⟨⟨h.alloc.l1_le, h.alloc.hiwater_lt, hn, h.alloc.l2⟩, h.caches, h.incomplete, h.partition⟩

/-- A call of `fill_cache` on an empty cache, or on one filled incompletely. -/
theorem Inv.fill (h : Inv s) (hroom : (s.cache c).nentries = 0 ∨ s.incomplete c)
    (hr : s.alloc.l1Size < min 64 (110 - (s.cache c).nentries) → s.alloc.Readable mem) :
    ∃ a tc full, s.alloc.fillCache mem (s.cache c) = some (a, tc, full) ∧
      Inv { s.setCache c tc (!full) with alloc := a } ∧
      s.alloc.FillResult mem l3LooseOids (min 64 (110 - (s.cache c).nentries)) (s.cache c) a tc
        full := by
  obtain ⟨a, tc, full, heq, hres⟩ := h.alloc.fillCache_spec hr (h.fill_room hroom)
  have hstep : s.step (.fill c mem) = some { s.setCache c tc (!full) with alloc := a } := by
    rw [OidSystem.step, if_pos hroom, heq]
    rfl
  exact ⟨a, tc, full, heq, h.step (x := .fill c mem) hr hstep, hres⟩

/-- The last step of the call, once there is an OID in the cache. -/
theorem Inv.take {a : Allocator} {tc : ThreadCache} {b : Bool}
    (h : Inv { s.setCache c tc b with alloc := a }) (hne : tc.nentries ≠ 0) :
    ∃ x ∉ s.held, tc.take.1 = some x ∧
      Inv { s.setCache c tc.take.2 false with alloc := a, held := x ::ₘ s.held } := by
  have hcache : ({ s.setCache c tc b with alloc := a } : OidSystem ι).cache c = tc :=
    update_self ..
  have hle := h.caches c
  rw [hcache, CACHE_N] at hle
  have hidx : usub 32 tc.nentries 1 = tc.nentries - 1 := usub_eq (by omega) (by omega)
  have htake : tc.take = (some (tc.entries (tc.nentries - 1)), ⟨tc.nentries - 1, tc.entries⟩) := by
    rw [ThreadCache.take, hidx, CACHE_N, if_pos (by omega)]
  have hfresh := h.allocate_fresh (c := c) (by rw [hcache]; exact hne)
  have hstep := h.step (x := .allocate c) trivial
    (by rw [OidSystem.step]; dsimp only; rw [hcache, if_neg hne])
  rw [hcache] at hfresh
  simp only [setCache, update_idem] at hstep
  rw [htake]
  exact ⟨_, hfresh, rfl, hstep⟩

/-- The first call of `fill_cache` by `context_allocate`. -/
theorem Inv.fill_empty (h : Inv s) (hc : (s.cache c).nentries = 0)
    (hr : s.alloc.CanRead mem (s.cache c)) :
    ∃ a tc full, s.alloc.fillCache mem (s.cache c) = some (a, tc, full) ∧
      Inv { s.setCache c tc (!full) with alloc := a } ∧
      s.alloc.FillResult mem l3LooseOids FILL_TARGET (s.cache c) a tc full := by
  have htarget : min 64 (110 - (s.cache c).nentries) = FILL_TARGET := by
    rw [hc, FILL_TARGET]
    rfl
  have hread : s.alloc.l1Size < min 64 (110 - (s.cache c).nentries) → s.alloc.Readable mem :=
    htarget.symm ▸ hr hc
  have hfill := h.fill (.inl hc) hread
  rwa [htarget] at hfill

/-- The call, if `fill_cache` can do without more capacity. -/
theorem Inv.contextAllocate_filled (h : Inv s)
    (hcap : s.alloc.hiwaterMark ≤ s.alloc.capacityMark) (hr : s.alloc.CanRead mem (s.cache c))
    (hgrow : ¬ s.alloc.NeedsGrowth (s.cache c)) :
    ∃ s' x, s.contextAllocate c mem = some (s', some x) ∧ x ∉ s.held ∧ s'.held = x ::ₘ s.held ∧
      Inv s' ∧ s'.alloc.hiwaterMark ≤ s'.alloc.capacityMark ∧
      s'.alloc.capacityMark = s.alloc.capacityMark ∧
      (s.alloc.Readable mem → s'.alloc.Readable mem) := by
  by_cases hc : (s.cache c).nentries = 0
  · obtain ⟨a, tc, full, heq, hinv, hres⟩ := h.fill_empty hc hr
    have hfull : full = true := by
      rw [← Bool.not_eq_false]
      exact fun hf => hgrow ⟨hc, hres.full_iff.mp hf⟩
    have hge := hres.ge hfull
    have hbelow := hres.filled.below
    have hcap' := hres.filled.capacity
    rw [FILL_TARGET] at hge
    obtain ⟨x, hx, htake, hinv'⟩ := hinv.take (by omega)
    have hfill : s.alloc.contextFill mem (s.cache c) = some (a, tc) := by
      rw [Allocator.contextFill, heq, hfull]
      rfl
    have hcall := contextAllocate_eq (by rw [if_pos hc]; exact hfill)
    rw [htake] at hcall
    refine ⟨_, x, hcall, hx, rfl, hinv', ?_, hcap', hres.filled.readable⟩
    show a.hiwaterMark ≤ a.capacityMark
    omega
  · have hself : { s.setCache c (s.cache c) (s.incomplete c) with alloc := s.alloc } = s := by
      simp only [setCache, update_eq_self]
    obtain ⟨x, hx, htake, hinv'⟩ := Inv.take (hself.symm ▸ h) hc
    have hcall : s.contextAllocate c mem = _ := contextAllocate_eq (if_neg hc)
    rw [htake] at hcall
    exact ⟨_, x, hcall, hx, rfl, hinv', hcap, rfl, id⟩

omit [DecidableEq ι] in
/-- There is no OID below a high water mark of 0. -/
theorem Inv.empty_of_hiwater (h : Inv s) (h0 : s.alloc.hiwaterMark = 0) (c : ι) :
    (s.cache c).nentries = 0 := by
  have hle : (s.cache c).oids ≤ s.places :=
    (Finset.single_le_sum (fun _ _ => Multiset.zero_le _) (Finset.mem_univ c)).trans
      ((Multiset.le_add_left _ _).trans (Multiset.le_add_right _ _))
  have hcard := Multiset.card_le_card hle
  rw [h.partition, h0, ThreadCache.oids, card_seg] at hcard
  simpa using hcard

/-- The call, if the capacity has to grow first. -/
theorem Inv.contextAllocate_grown (h : Inv s)
    (hcap : s.alloc.hiwaterMark ≤ s.alloc.capacityMark) (hr : s.alloc.CanRead mem (s.cache c))
    (hgrow : s.alloc.NeedsGrowth (s.cache c)) :
    ∃ s' o, s.contextAllocate c mem = some (s', o) ∧
      (s.CanGrow → ∃ x ∉ s.held, o = some x ∧ s'.held = x ::ₘ s.held ∧ Inv s' ∧
        s'.alloc.hiwaterMark ≤ s'.alloc.capacityMark ∧
        s'.alloc.capacityMark = 5 * s.alloc.capacityMark / 4 ∧ s'.alloc.Readable mem) ∧
      (¬ s.CanGrow → ¬ s.AllocatesWell s' o) := by
  obtain ⟨hc, hshort⟩ := hgrow
  obtain ⟨a1, tc1, full, heq, hinv1, hres1⟩ := h.fill_empty hc hr
  obtain rfl : full = false := hres1.full_iff.mpr hshort
  -- the allocator is at its capacity
  have hcap1 := hres1.filled.capacity
  have hhi1 : a1.hiwaterMark = s.alloc.capacityMark := by
    have hbelow := hres1.filled.below
    have hend := hres1.atCapacity rfl
    omega
  have hlt := h.alloc.capacity_lt
  have hbound : a1.proposeCapacity < 2 ^ 32 := by
    rw [Allocator.proposeCapacity]
    split <;> omega
  have hinv := hinv1.setCapacity hbound
  have hcache := update_self c tc1 s.cache
  have hinc : Function.update s.incomplete c (!false) c = true := update_self ..
  have hr1 : a1.Readable mem := hres1.filled.readable (hr hc (by have := hshort.1; omega))
  obtain ⟨a2, tc2, full2, heq2, hinv2, hres2⟩ := hinv.fill (c := c) (.inr hinc) fun _ => hr1
  simp only [setCache, hcache] at heq2 hres2
  simp only [setCache, update_idem] at hinv2
  have hfill : s.alloc.contextFill mem (s.cache c) = some (a2, tc2) := by
    rw [Allocator.contextFill, heq]
    simp only [Option.bind_eq_bind, Option.bind_some, Bool.false_eq_true, if_false]
    rw [heq2]
    rfl
  have hcall := contextAllocate_eq (by rw [if_pos hc]; exact hfill)
  have hcap2 : a2.capacityMark = a1.proposeCapacity := hres2.filled.capacity
  have hhi2 : a1.hiwaterMark ≤ a2.hiwaterMark := hres2.filled.hiwater_le
  have hroom : tc1.nentries < 110 := by
    have hlt1 := hres1.lt rfl
    rw [FILL_TARGET] at hlt1
    omega
  refine ⟨_, _, hcall, fun hcan => ?_, fun hcan hwell => ?_⟩
  · have hp : a1.proposeCapacity = 5 * s.alloc.capacityMark / 4 := by
      rw [Allocator.proposeCapacity_eq] <;> rw [hcap1]
      · exact hcan.2
      · exact hcan.1
    have hfour := hcan.1
    have hmax : a2.hiwaterMark ≤ max a1.hiwaterMark a1.proposeCapacity := hres2.filled.below
    have hbelow : a2.hiwaterMark ≤ a2.capacityMark := by omega
    have htaken : tc1.nentries + a2.hiwaterMark ≤ tc2.nentries + a1.hiwaterMark :=
      hres2.filled.taken
    have hne : tc2.nentries ≠ 0 := by
      cases hf : full2 with
      | true =>
        have := hres2.ge hf
        omega
      | false =>
        have hend : a1.proposeCapacity ≤ a2.hiwaterMark := hres2.atCapacity hf
        omega
    obtain ⟨x, hx, htake, hinv'⟩ := Inv.take (c := c) (b := !full2) hinv2 hne
    refine ⟨x, hx, htake, ?_, ?_, hbelow, hcap2.trans hp, hres2.filled.readable hr1⟩
    · rw [htake]
      rfl
    · rw [htake]
      exact hinv'
  · obtain ⟨⟨x, -, htake⟩, hbelow⟩ := hwell
    replace hbelow : a2.hiwaterMark ≤ a2.capacityMark := hbelow
    -- the capacity has not been lowered, so it was 0
    have hle : s.alloc.capacityMark ≤ a1.proposeCapacity := by omega
    have hzero : s.alloc.capacityMark = 0 ∧ a1.proposeCapacity = 0 := by
      by_cases hover : 5 * s.alloc.capacityMark < 2 ^ 32
      · have hsmall : s.alloc.capacityMark < 4 := by
          by_contra hbig
          exact hcan ⟨by omega, hover⟩
        have hp : a1.proposeCapacity = 0 := by
          rw [Allocator.proposeCapacity, hcap1, Nat.mod_eq_of_lt hover]
          split <;> omega
        omega
      · have hwrap := Allocator.wrapped_lt (n := s.alloc.capacityMark) (by omega)
        have hp := Allocator.proposeCapacity_of_wrapped (a := a1) (by omega)
        rw [hcap1] at hp
        omega
    have hempty : (Function.update s.cache c tc2 c).nentries = 0 :=
      hinv2.empty_of_hiwater (by show a2.hiwaterMark = 0; omega) c
    rw [update_self] at hempty
    rw [ThreadCache.take, hempty, if_neg (by decide)] at htake
    cases htake

/-- **Growth of the capacity.**  As long as 5 times the capacity fits in 32 bits,
`propose_capacity` is right for every alignment that is a power of two; for the alignment 1
that is so up to the cases where it happens to return 0.  `context_allocate` is right unless
the capacity has to grow and cannot. -/
theorem oid_growth (h : Inv s) (hcap : s.alloc.hiwaterMark ≤ s.alloc.capacityMark) :
    (∀ k < 64, 5 * s.alloc.capacityMark < 2 ^ 32 → s.alloc.ProposesWell (2 ^ k)) ∧
    (s.alloc.ProposesWell 1 ↔
      5 * s.alloc.capacityMark < 2 ^ 32 ∨ 5 * s.alloc.capacityMark % 2 ^ 32 < 4) ∧
    ∀ c mem, s.alloc.CanRead mem (s.cache c) → ∃ s' o, s.contextAllocate c mem = some (s', o) ∧
      (s.AllocatesWell s' o ↔ (s.alloc.NeedsGrowth (s.cache c) → s.CanGrow)) := by
  refine ⟨fun k hk hfit => ?_, Allocator.proposesWell_one_iff h.alloc.capacity_lt,
    fun c mem hr => ?_⟩
  · exact (Allocator.proposesWell_iff hfit (Nat.two_pow_pos k)
      (Nat.pow_lt_pow_right (by norm_num) hk)).mpr (Allocator.dvd_and_mask _ k hk)
  · by_cases hgrow : s.alloc.NeedsGrowth (s.cache c)
    · obtain ⟨s', o, hcall, hgood, hbad⟩ := h.contextAllocate_grown hcap hr hgrow
      refine ⟨s', o, hcall, fun hwell _ => ?_, fun hcan => ?_⟩
      · by_contra hcan
        exact hbad hcan hwell
      · obtain ⟨x, hx, ho, -, -, hle, -⟩ := hgood (hcan hgrow)
        exact ⟨⟨x, hx, ho⟩, hle⟩
    · obtain ⟨s', x, hcall, hx, -, -, hle, -⟩ := h.contextAllocate_filled hcap hr hgrow
      exact ⟨s', some x, hcall, fun _ hneed => absurd hneed hgrow, fun _ => ⟨⟨x, hx, rfl⟩, hle⟩⟩

/-- A new file, with one thread. -/
def newFile : OidSystem Unit := init 0 id ⟨0, 0, 0, 0, id, id, fun _ => .init1 0⟩ fun _ => id

theorem oid_growth_new : newFile.alloc.ProposesWell (2 ^ 12) ∧
    ∃ s' o, newFile.contextAllocate () (fun _ => none) = some (s', o) ∧
      newFile.AllocatesWell s' o := by
  obtain ⟨hpow, -, hcall⟩ := oid_growth (s := newFile)
    (inv_init (by norm_num) id ⟨0, 0, 0, 0, id, id, fun _ => .init1 0⟩ fun _ => id)
    (Nat.zero_le _)
  obtain ⟨s', o, heq, hwell⟩ := hcall () (fun _ => none) fun _ _ hv => absurd rfl hv
  exact ⟨hpow 12 (by norm_num) (by decide), s', o, heq, hwell.mpr fun _ => ⟨by decide, by decide⟩⟩

/-- After growing 31 times the proposal is below the capacity.  An alignment of 3 is not
met by a new allocator.  After recovery with a high water mark of 858993396 the first call
sets the capacity to 1 and reads past an empty cache. -/
theorem capacity_wraps :
    (∃ a, a = (fun a : Allocator => { a with capacityMark := a.proposeCapacityBy 1 })^[31]
        newFile.alloc ∧ a.capacityMark = 1058791066 ∧ a.proposeCapacityBy 1 = 249747008) ∧
      newFile.alloc.proposeCapacityBy 3 = 1310720 ∧ ¬ newFile.alloc.ProposesWell 3 ∧
      ∃ a tc, (newFile.alloc.recreate 858993396).contextAllocate (fun _ => none)
          (newFile.cache ()) = some (a, tc, none) ∧
        a.capacityMark = 1 ∧ a.hiwaterMark = 858993460 := by
  refine ⟨⟨_, rfl, ?_, ?_⟩, by decide +kernel, by decide +kernel, ?_⟩
  · decide +kernel
  · decide +kernel
  · have hcall : ((newFile.alloc.recreate 858993396).contextAllocate (fun _ => none)
        (newFile.cache ())).map (fun r => (r.1.capacityMark, r.1.hiwaterMark, r.2.2)) =
        some (1, 858993460, none) := by decide +kernel
    obtain ⟨⟨a, tc, o⟩, heq, hview⟩ := Option.map_eq_some_iff.mp hcall
    simp only [Prod.mk.injEq] at hview
    obtain ⟨hcap, hhi, rfl⟩ := hview
    exact ⟨a, tc, heq, hcap, hhi⟩

end OidSystem

end PreemptDB
