/-
Freeing of OIDs by threads (`context_free` and `context_revoke_caches` in `sm-oid.cpp`).

A full cache is drained before the freed OID is stored in it, and a cache is drained
before it is cleared.  Both calls ignore whether `drain_cache` found room: once L1 is
full and all bitmaps of L2 are used, it may not move anything.

* `Allocator.contextFree`, `Allocator.contextRevoke` — the calls on a file;
* `Allocator.Exhausted`, `Allocator.HasRoom` — nothing can be drained, and enough can;
* `OidSystem.contextStep` — the calls of the threads on one file;
* `cache_within` — when stores and clears are right;
* `cache_overrun` — a thread that frees too many OIDs, by counting.
-/
import PreemptDB.OidContext

namespace PreemptDB

open Function Segment StepRun

theorem L2.insertOid_eq_none_iff {l : L2} {x : ℕ} :
    l.insertOid x = none ↔ l.assignments (x / 2 ^ 16) = 0 ∧ l.firstUnused = L2_CAPACITY := by
  rw [L2.insertOid]
  dsimp only
  by_cases ha : l.assignments (x / 2 ^ 16) = 0
  · rw [if_neg (not_not.mpr ha)]
    by_cases hu : l.firstUnused = L2_CAPACITY
    · rw [if_pos hu]
      exact ⟨fun _ => ⟨ha, hu⟩, fun _ => rfl⟩
    · rw [if_neg hu]
      exact ⟨fun h => absurd h (Option.some_ne_none _), fun h => absurd h.2 hu⟩
  · rw [if_pos ha]
    refine ⟨fun h => ?_, fun h => absurd h.1 ha⟩
    split at h <;> cases h

/-- An OID takes at most one more bitmap. -/
theorem L2.insertOid_firstUnused {l l' : L2} {x : ℕ} (h : l.insertOid x = some l') :
    l'.firstUnused ≤ l.firstUnused + 1 := by
  rw [L2.insertOid] at h
  dsimp only at h
  split at h
  · split at h <;> cases h <;> exact Nat.le_succ _
  · split at h <;> cases h
    exact le_rfl

namespace Allocator

/-- `context_free`, with the index at which the OID is stored. -/
def contextFree (a : Allocator) (tc : ThreadCache) (o : ℕ) : Allocator × ThreadCache × ℕ :=
  if tc.spaceRemaining = 0 then
    let r := a.drainCache tc 0
    (r.1, r.2.1.append [o], r.2.1.nentries)
  else (a, tc.append [o], tc.nentries)

/-- `context_revoke_caches`, for the cache of one file, with the number of OIDs that are
still in it when it is cleared. -/
def contextRevoke (a : Allocator) (tc : ThreadCache) : Allocator × ThreadCache × ℕ :=
  let r := a.drainCache tc 0
  (r.1, ⟨0, r.2.1.entries⟩, r.2.1.nentries)

/-- A cache with `n` OIDs can be drained. -/
def Absorbs (a : Allocator) (n : ℕ) : Prop := (a.makeRoom n).l1Size + n ≤ L1_CAPACITY

/-- L1 is full, and L2 has no bitmap for any OID of its upper half. -/
def Exhausted (a : Allocator) : Prop :=
  a.l1Size = L1_CAPACITY ∧ a.l2.valid ∧ a.l2.firstUnused = L2_CAPACITY ∧
    ∀ i < L1_CAPACITY / 2,
      a.l2.assignments (a.l1 (L1_CAPACITY - L1_CAPACITY / 2 + i) / 2 ^ 16) = 0

/-- The OIDs in the upper half of L1. -/
def upperHalf (a : Allocator) : Multiset ℕ :=
  seg a.l1 (a.l1Size - L1_CAPACITY / 2) (L1_CAPACITY / 2)

/-- How many bitmaps are unused; the first one never is. -/
def unusedMaps (a : Allocator) : ℕ :=
  L2_CAPACITY - if a.l2.valid then a.l2.firstUnused else 1

/-- There is room for `n` OIDs in L1, counting what OIDs of its upper half leave if they go
to the bitsets of their swaths, or one to each unused bitmap. -/
def HasRoom (a : Allocator) (n : ℕ) : Prop :=
  n ≤ L1_CAPACITY - a.l1Size + (if a.l2.valid then a.l2.places a.upperHalf else 0) + a.unusedMaps

variable {a : Allocator} {tc : ThreadCache}

section Drain

theorem drainOid_of_none {x : ℕ} (h : a.l2.insertOid x = none) :
    a.drainOid x = { a with l1 := Function.update a.l1 a.l1Size x, l1Size := a.l1Size + 1 } := by
  rw [drainOid, h]

theorem drainOid_of_some {x : ℕ} {l : L2} (h : a.l2.insertOid x = some l) :
    a.drainOid x = { a with l2 := l } := by
  rw [drainOid, h]

theorem drainLoop_size_le : ∀ (n j : ℕ) (a : Allocator),
    (drainLoop n j a).l1Size ≤ a.l1Size + n := by
  intro n
  induction n with
  | zero =>
    intro j a
    exact le_rfl
  | succ n ih =>
    intro j a
    have hrest := ih (j + 1) (a.drainOid (a.l1 j))
    rw [drainLoop]
    cases hins : a.l2.insertOid (a.l1 j) with
    | none =>
      rw [drainOid_of_none hins] at hrest ⊢
      dsimp only at hrest
      omega
    | some l =>
      rw [drainOid_of_some hins] at hrest ⊢
      dsimp only at hrest
      omega

/-- As many OIDs leave L1 as there are unused bitmaps. -/
theorem drainLoop_unused : ∀ (n j : ℕ) (a : Allocator),
    (drainLoop n j a).l1Size + min n (L2_CAPACITY - a.l2.firstUnused) ≤ a.l1Size + n := by
  intro n
  induction n with
  | zero =>
    intro j a
    rw [Nat.zero_min]
    exact le_rfl
  | succ n ih =>
    intro j a
    have hrest := ih (j + 1) (a.drainOid (a.l1 j))
    rw [drainLoop]
    cases hins : a.l2.insertOid (a.l1 j) with
    | none =>
      have hused := (L2.insertOid_eq_none_iff.mp hins).2
      rw [drainOid_of_none hins] at hrest ⊢
      dsimp only at hrest
      omega
    | some l =>
      have hfirst := L2.insertOid_firstUnused hins
      rw [drainOid_of_some hins] at hrest ⊢
      dsimp only at hrest
      omega

/-- All OIDs stay in L1 just if none of them has a bitmap. -/
theorem drainLoop_size_eq_iff : ∀ (n j : ℕ) (a : Allocator), a.l1Size ≤ j →
    ((drainLoop n j a).l1Size = a.l1Size + n ↔
      ∀ i < n, a.l2.insertOid (a.l1 (j + i)) = none) := by
  intro n
  induction n with
  | zero =>
    intro j a _
    simp [drainLoop]
  | succ n ih =>
    intro j a hj
    rw [drainLoop]
    cases hins : a.l2.insertOid (a.l1 j) with
    | none =>
      -- the OID goes back to a place that has been read
      have hplace : ∀ i, Function.update a.l1 a.l1Size (a.l1 j) (j + 1 + i) = a.l1 (j + 1 + i) :=
        fun i => update_of_ne (by omega) _ _
      rw [drainOid_of_none hins, Nat.add_comm n 1, ← Nat.add_assoc]
      refine (ih (j + 1) _ (by show a.l1Size + 1 ≤ j + 1; omega)).trans ?_
      simp only [hplace]
      constructor
      · intro h i hi
        cases i with
        | zero => exact hins
        | succ i =>
          have := h i (by omega)
          rwa [show j + 1 + i = j + (i + 1) by omega] at this
      · intro h i hi
        rw [show j + 1 + i = j + (i + 1) by omega]
        exact h (i + 1) (by omega)
    | some l =>
      rw [drainOid_of_some hins]
      have hle := drainLoop_size_le n (j + 1) { a with l2 := l }
      dsimp only at hle
      constructor
      · intro h
        omega
      · intro h
        have := h 0 (by omega)
        rw [Nat.add_zero, hins] at this
        cases this

/-- `_drain_l1` as its loop, with a new L2 if there was none. -/
theorem drainL1_eq (a : Allocator) (n : ℕ) :
    ∃ l : L2, (a.l2.valid → l = a.l2) ∧ (¬ a.l2.valid → l.firstUnused = 1) ∧
      a.drainL1 n = drainLoop n (a.l1Size - n) { a with l2 := l, l1Size := a.l1Size - n } := by
  by_cases hv : a.l2.valid
  · refine ⟨a.l2, fun _ => rfl, fun h => absurd hv h, ?_⟩
    rw [drainL1, if_pos hv]
  · refine ⟨a.l2.init, fun h => absurd h hv, fun _ => rfl, ?_⟩
    rw [drainL1, if_neg hv]

theorem makeRoom_size_le (h : a.l1Size ≤ L1_CAPACITY) {n : ℕ} (hn : n ≤ CACHE_N) :
    (a.makeRoom n).l1Size ≤ a.l1Size := by
  rw [makeRoom_eq h hn]
  split
  · obtain ⟨l, -, -, heq⟩ := a.drainL1_eq (L1_CAPACITY / 2)
    have hle := drainLoop_size_le (L1_CAPACITY / 2) (a.l1Size - L1_CAPACITY / 2)
      { a with l2 := l, l1Size := a.l1Size - L1_CAPACITY / 2 }
    rw [heq]
    dsimp only at hle
    rw [CACHE_N] at hn
    rw [L1_CAPACITY] at *
    omega
  · exact le_rfl

/-- A full cache finds no room at all just if the allocator is exhausted. -/
theorem makeRoom_eq_capacity_iff (h : a.l1Size ≤ L1_CAPACITY) :
    (a.makeRoom CACHE_N).l1Size = L1_CAPACITY ↔ a.Exhausted := by
  have hsize := makeRoom_size_le h (le_refl CACHE_N)
  obtain ⟨l, hvalid, hnew, heq⟩ := a.drainL1_eq (L1_CAPACITY / 2)
  have hhalf : 0 < L1_CAPACITY / 2 ∧ L1_CAPACITY / 2 ≤ L1_CAPACITY := by
    rw [L1_CAPACITY]
    omega
  -- what the loop of `_drain_l1` leaves when it starts with a full L1
  have hloop : a.l1Size = L1_CAPACITY → ((a.makeRoom CACHE_N).l1Size = L1_CAPACITY ↔
      ∀ i < L1_CAPACITY / 2, l.insertOid (a.l1 (L1_CAPACITY - L1_CAPACITY / 2 + i)) = none) := by
    intro hfull
    have hover : L1_CAPACITY < a.l1Size + CACHE_N := by
      rw [hfull, CACHE_N]
      omega
    rw [makeRoom_eq h le_rfl, if_pos hover, heq, hfull]
    have := drainLoop_size_eq_iff (L1_CAPACITY / 2) (L1_CAPACITY - L1_CAPACITY / 2)
      { a with l2 := l, l1Size := L1_CAPACITY - L1_CAPACITY / 2 } le_rfl
    dsimp only at this
    rwa [Nat.sub_add_cancel hhalf.2] at this
  constructor
  · intro hroom
    have hfull : a.l1Size = L1_CAPACITY := le_antisymm h (hroom ▸ hsize)
    have hnone := (hloop hfull).mp hroom
    have hused := (L2.insertOid_eq_none_iff.mp (hnone 0 hhalf.1)).2
    have hv : a.l2.valid := by
      by_contra hv
      rw [hnew hv, L2_CAPACITY] at hused
      omega
    rw [hvalid hv] at hnone hused
    exact ⟨hfull, hv, hused, fun i hi => (L2.insertOid_eq_none_iff.mp (hnone i hi)).1⟩
  · rintro ⟨hfull, hv, hused, hnone⟩
    rw [hloop hfull, hvalid hv]
    exact fun i hi => L2.insertOid_eq_none_iff.mpr ⟨hnone i hi, hused⟩

/-- How many OIDs leave L1: those that fit in the bitsets of their swaths, and one for each
unused bitmap at least; if there is none, then just those that fit. -/
theorem Inv.drainLoop_moved : ∀ (n j : ℕ) {a : Allocator}, Inv a → a.l2.valid → a.l1Size ≤ j →
    j + n ≤ L1_CAPACITY → (∀ x ∈ seg a.l1 j n, x < 2 ^ 32) →
    (seg a.l1 j n + a.freeOids).Nodup →
    (drainLoop n j a).l1Size +
        min n (a.l2.places (seg a.l1 j n) + (L2_CAPACITY - a.l2.firstUnused)) ≤ a.l1Size + n ∧
      (a.l2.firstUnused = L2_CAPACITY →
        (drainLoop n j a).l1Size + a.l2.places (seg a.l1 j n) = a.l1Size + n) := by
  intro n
  induction n with
  | zero =>
    intro j a _ _ _ _ _ _
    have hzero : a.l2.places (seg a.l1 j 0) = 0 :=
      Nat.le_zero.mp ((a.l2.places_le_card _).trans (card_seg _ _ _).le)
    rw [hzero, Nat.zero_min]
    exact ⟨le_rfl, fun _ => rfl⟩
  | succ n ih =>
    intro j a h hv hj hle hlt hnodup
    rw [seg_cons, Multiset.cons_add, Multiset.nodup_cons] at hnodup
    rw [seg_cons] at hlt ⊢
    have hx := hlt _ (Multiset.mem_cons_self _ _)
    have hfree : a.l1 j ∉ a.freeOids := fun hin => hnodup.1 (Multiset.mem_add.mpr (.inr hin))
    obtain ⟨hinv, hv', hoids, hsize, -, hl1⟩ := h.drainOid_spec hv hx hfree (by omega)
    have hseg : seg (a.drainOid (a.l1 j)).l1 (j + 1) n = seg a.l1 (j + 1) n :=
      seg_congr fun i hle' _ => hl1 i (by omega)
    obtain ⟨hrest, hexact⟩ := ih (j + 1) hinv hv' (by omega) (by omega)
      (fun x hx => hlt x (Multiset.mem_cons_of_mem (hseg ▸ hx)))
      (by rw [hseg, hoids, Multiset.add_cons, Multiset.nodup_cons]; exact hnodup)
    rw [hseg] at hrest hexact
    have hcard := a.l2.places_le_card (seg a.l1 (j + 1) n)
    rw [card_seg] at hcard
    rw [drainLoop]
    cases hins : a.l2.insertOid (a.l1 j) with
    | none =>
      obtain ⟨h0, hused⟩ := L2.insertOid_eq_none_iff.mp hins
      rw [drainOid_of_none hins] at hrest hexact ⊢
      rw [L2.places_cons_of_full (if_pos h0)]
      dsimp only at hrest hexact
      have hall := hexact hused
      generalize a.l2.places (seg a.l1 (j + 1) n) = k at *
      exact ⟨by omega, fun _ => by omega⟩
    | some l =>
      have hs : a.l1 j / 2 ^ 16 < L2_CAPACITY := by
        rw [L2_CAPACITY]
        omega
      have hassigned : a.l1 j ∉ a.l2.assignedOids := fun hin => hfree (by
        rw [freeOids, l2Oids, if_pos hv]
        exact Multiset.mem_add.mpr (.inr (Multiset.mem_add.mpr (.inl hin))))
      obtain ⟨hother, ⟨hroom, hfirst⟩ | ⟨h0, hfirst, hunused⟩⟩ :=
        (h.l2 hv).insertOid_room hs hassigned hins
      · rw [drainOid_of_some hins] at hrest hexact ⊢
        rw [L2.places_cons_of_room hs hother hroom]
        dsimp only at hrest hexact
        rw [hfirst] at hrest hexact
        generalize l.places (seg a.l1 (j + 1) n) = k at *
        exact ⟨by omega, fun hused => by have := hexact hused; omega⟩
      · -- an unused bitmap is taken; it has room for other OIDs of the swath
        have hmono : a.l2.places (seg a.l1 (j + 1) n) ≤ l.places (seg a.l1 (j + 1) n) := by
          refine L2.places_mono fun s hlt' => ?_
          by_cases hne : s = a.l1 j / 2 ^ 16
          · rw [hne, h0]
            exact Nat.zero_le _
          · exact (hother s hlt' hne).ge
        rw [drainOid_of_some hins] at hrest ⊢
        rw [L2.places_cons_of_full h0]
        dsimp only at hrest
        generalize l.places (seg a.l1 (j + 1) n) = k at *
        generalize a.l2.places (seg a.l1 (j + 1) n) = m at *
        exact ⟨by omega, fun hused => absurd hused hunused.ne⟩

/-- Unused bitmaps are enough, also if there is no L2 yet. -/
theorem absorbs_of_unused (h : a.l1Size ≤ L1_CAPACITY) {n : ℕ} (hn : n ≤ CACHE_N)
    (hunused : a.l2.valid → a.l2.firstUnused + n ≤ L2_CAPACITY) : a.Absorbs n := by
  rw [Absorbs, makeRoom_eq h hn]
  split
  case isFalse hc => omega
  case isTrue hc =>
    obtain ⟨l, hvalid, hnew, heq⟩ := a.drainL1_eq (L1_CAPACITY / 2)
    have hloop := drainLoop_unused (L1_CAPACITY / 2) (a.l1Size - L1_CAPACITY / 2)
      { a with l2 := l, l1Size := a.l1Size - L1_CAPACITY / 2 }
    have hfirst : l.firstUnused + n ≤ L2_CAPACITY := by
      by_cases hv : a.l2.valid
      · rw [hvalid hv]
        exact hunused hv
      · rw [hnew hv, L2_CAPACITY]
        rw [CACHE_N] at hn
        omega
    rw [heq]
    dsimp only at hloop
    rw [CACHE_N] at hn
    rw [L1_CAPACITY] at *
    omega

/-- The condition is sufficient, and it is necessary if no bitmap is unused. -/
theorem Inv.absorbs_of_hasRoom (h : Inv a) {n : ℕ} (hn : n ≤ CACHE_N)
    (hlt : ∀ x ∈ a.freeOids, x < 2 ^ 32) (hnodup : a.freeOids.Nodup) :
    (a.HasRoom n → a.Absorbs n) ∧
      (a.l2.valid → a.l2.firstUnused = L2_CAPACITY → (a.Absorbs n ↔ a.HasRoom n)) := by
  by_cases hv : a.l2.valid
  swap
  · exact ⟨fun _ => absorbs_of_unused h.l1_le hn fun hv' => absurd hv' hv, fun hv' => absurd hv' hv⟩
  have hcap := h.l1_le
  rw [HasRoom, unusedMaps, if_pos hv, if_pos hv, Absorbs, makeRoom_eq hcap hn]
  by_cases hc : L1_CAPACITY < a.l1Size + n
  swap
  · rw [if_neg hc]
    exact ⟨fun _ => by omega, fun _ _ => ⟨fun _ => by omega, fun _ => by omega⟩⟩
  have hhalf : L1_CAPACITY / 2 ≤ a.l1Size ∧ n ≤ L1_CAPACITY / 2 := by
    rw [CACHE_N] at hn
    rw [L1_CAPACITY] at *
    omega
  have hsplit := a.freeOids_split hhalf.1
  obtain ⟨hmoved, hexact⟩ := Inv.drainLoop_moved (L1_CAPACITY / 2) (a.l1Size - L1_CAPACITY / 2)
    (a := { a with l1Size := a.l1Size - L1_CAPACITY / 2 })
    ⟨(Nat.sub_le _ _).trans hcap, h.hiwater_lt, h.capacity_lt, h.l2⟩ hv le_rfl (by omega)
    (fun x hx => hlt x (by rw [hsplit]; exact Multiset.mem_add.mpr (.inl hx)))
    (by rw [← hsplit]; exact hnodup)
  have hdrain : a.drainL1 (L1_CAPACITY / 2) = drainLoop (L1_CAPACITY / 2)
      (a.l1Size - L1_CAPACITY / 2) { a with l1Size := a.l1Size - L1_CAPACITY / 2 } := by
    rw [drainL1, if_pos hv]
  rw [if_pos hc, hdrain, upperHalf]
  dsimp only at hmoved hexact
  generalize a.l2.places (seg a.l1 (a.l1Size - L1_CAPACITY / 2) (L1_CAPACITY / 2)) = k at *
  refine ⟨fun hroom => by omega, fun _ hused => ?_⟩
  have hall := hexact hused
  omega

/-- Draining does not touch the marks. -/
theorem drainLoop_marks : ∀ (n j : ℕ) (a : Allocator),
    (drainLoop n j a).hiwaterMark = a.hiwaterMark ∧
      (drainLoop n j a).capacityMark = a.capacityMark := by
  intro n
  induction n with
  | zero =>
    intro j a
    exact ⟨rfl, rfl⟩
  | succ n ih =>
    intro j a
    obtain ⟨hhi, hcap⟩ := ih (j + 1) (a.drainOid (a.l1 j))
    rw [drainLoop, hhi, hcap]
    cases hins : a.l2.insertOid (a.l1 j) with
    | none =>
      rw [drainOid_of_none hins]
      exact ⟨rfl, rfl⟩
    | some l =>
      rw [drainOid_of_some hins]
      exact ⟨rfl, rfl⟩

theorem drainCache_marks (a : Allocator) (tc : ThreadCache) (n : ℕ) :
    (a.drainCache tc n).1.hiwaterMark = a.hiwaterMark ∧
      (a.drainCache tc n).1.capacityMark = a.capacityMark := by
  show (a.makeRoom tc.nentries).hiwaterMark = _ ∧ (a.makeRoom tc.nentries).capacityMark = _
  rw [makeRoom]
  split
  · obtain ⟨l, -, -, heq⟩ := a.drainL1_eq (L1_CAPACITY / 2)
    rw [heq]
    exact drainLoop_marks _ _ _
  · exact ⟨rfl, rfl⟩

/-- What `drain_cache` leaves in the cache. -/
theorem drainCache_nentries (a : Allocator) (hn : tc.nentries ≤ CACHE_N) :
    (a.drainCache tc 0).2.1.nentries =
      tc.nentries - (L1_CAPACITY - (a.makeRoom tc.nentries).l1Size) := by
  have hlt : tc.nentries < 2 ^ 32 := by
    rw [CACHE_N] at hn
    omega
  show usub 32 tc.nentries (min tc.nentries (L1_CAPACITY - (a.makeRoom tc.nentries).l1Size)) = _
  rw [usub_eq (min_le_left _ _) hlt]
  omega

theorem spaceRemaining_eq_zero_iff (hn : tc.nentries ≤ CACHE_N) :
    tc.spaceRemaining = 0 ↔ tc.nentries = CACHE_N := by
  rw [ThreadCache.spaceRemaining, usub_eq hn (by norm_num [CACHE_N])]
  omega

/-- `context_free` stores in the array, unless the cache is full and nothing can be
drained. -/
theorem contextFree_index_lt_iff (h : a.l1Size ≤ L1_CAPACITY) (hn : tc.nentries ≤ CACHE_N)
    (o : ℕ) :
    (a.contextFree tc o).2.2 < CACHE_N ↔ tc.nentries < CACHE_N ∨ ¬ a.Exhausted := by
  rw [contextFree]
  by_cases hfull : tc.nentries = CACHE_N
  · have hsize := makeRoom_size_le h (le_refl CACHE_N)
    have hpos : 0 < CACHE_N := by decide
    rw [if_pos ((spaceRemaining_eq_zero_iff hn).mpr hfull), ← makeRoom_eq_capacity_iff h]
    dsimp only
    rw [drainCache_nentries a hn, hfull]
    omega
  · rw [if_neg (mt (spaceRemaining_eq_zero_iff hn).mp hfull)]
    dsimp only
    have hlt : tc.nentries < CACHE_N := lt_of_le_of_ne hn hfull
    exact ⟨fun _ => .inl hlt, fun _ => hlt⟩

/-- A cache is empty when it is cleared, just if L1 has taken all its OIDs. -/
theorem contextRevoke_eq_zero_iff (h : a.l1Size ≤ L1_CAPACITY) (hn : tc.nentries ≤ CACHE_N) :
    (a.contextRevoke tc).2.2 = 0 ↔ a.Absorbs tc.nentries := by
  have hsize := makeRoom_size_le h hn
  show (a.drainCache tc 0).2.1.nentries = 0 ↔ _
  rw [drainCache_nentries a hn, Absorbs]
  omega

end Drain

end Allocator

namespace OidSystem

/-- Calls of the threads on one file; a call of `alloc_oid` comes with what it finds in
memory. -/
inductive ContextAct (ι : Type*)
  | allocOid (c : ι) (mem : Memory)
  | freeOid (c : ι) (o : ℕ)
  | revoke (c : ι)

section Calls

variable {ι : Type*} [DecidableEq ι]

def contextFree (s : OidSystem ι) (c : ι) (o : ℕ) : OidSystem ι :=
  let r := s.alloc.contextFree (s.cache c) o
  { s.setCache c r.2.1 false with alloc := r.1, held := s.held.erase o }

def contextRevoke (s : OidSystem ι) (c : ι) : OidSystem ι :=
  let r := s.alloc.contextRevoke (s.cache c)
  { s.setCache c r.2.1 false with alloc := r.1 }

/-- An OID that is freed is live. -/
def contextStep (s : OidSystem ι) : ContextAct ι → Option (OidSystem ι)
  | .allocOid c mem => (s.contextAllocate c mem).map (·.1)
  | .freeOid c o => if o ∈ s.held then some (s.contextFree c o) else none
  | .revoke c => some (s.contextRevoke c)

end Calls

variable {ι : Type*}

/-- The freed OID is stored in the array, and a cache that is cleared is empty. -/
def Within (s : OidSystem ι) : ContextAct ι → Prop
  | .allocOid _ _ => True
  | .freeOid c o => (s.alloc.contextFree (s.cache c) o).2.2 < CACHE_N
  | .revoke c => (s.alloc.contextRevoke (s.cache c)).2.2 = 0

/-- A call that needs room finds some; an allocation does what it is meant to do. -/
def ContextOk (s : OidSystem ι) : ContextAct ι → Prop
  | .allocOid c mem =>
    s.alloc.CanRead mem (s.cache c) ∧ (s.alloc.NeedsGrowth (s.cache c) → s.CanGrow)
  | .freeOid c _ => (s.cache c).nentries < CACHE_N ∨ ¬ s.alloc.Exhausted
  | .revoke c => s.alloc.HasRoom (s.cache c).nentries

structure ContextInv [Fintype ι] (s : OidSystem ι) : Prop where
  inv : Inv s
  below : s.alloc.hiwaterMark ≤ s.alloc.capacityMark

variable [Fintype ι] {s s' : OidSystem ι} {c : ι}

theorem Inv.within_freeOid_iff (h : Inv s) (c : ι) (o : ℕ) :
    s.Within (.freeOid c o) ↔ (s.cache c).nentries < CACHE_N ∨ ¬ s.alloc.Exhausted :=
  Allocator.contextFree_index_lt_iff h.alloc.l1_le (h.caches c) o

theorem Inv.within_revoke (h : Inv s) (c : ι) :
    (s.alloc.HasRoom (s.cache c).nentries → s.Within (.revoke c)) ∧
      (s.alloc.l2.valid → s.alloc.l2.firstUnused = L2_CAPACITY →
        (s.Within (.revoke c) ↔ s.alloc.HasRoom (s.cache c).nentries)) := by
  have hiff : s.Within (.revoke c) ↔ s.alloc.Absorbs (s.cache c).nentries :=
    Allocator.contextRevoke_eq_zero_iff h.alloc.l1_le (h.caches c)
  rw [hiff]
  exact h.alloc.absorbs_of_hasRoom (h.caches c)
    (fun o ho => (Multiset.mem_range.mp (Multiset.mem_of_le h.free_le ho)).trans h.alloc.hiwater_lt)
    (Multiset.nodup_of_le h.free_le (Multiset.nodup_range _))

theorem Inv.within (h : Inv s) {x : ContextAct ι} (hok : s.ContextOk x) : s.Within x := by
  cases x with
  | allocOid c mem => trivial
  | freeOid c o => exact (h.within_freeOid_iff c o).mpr hok
  | revoke c => exact (h.within_revoke c).1 hok

variable [DecidableEq ι]

/-- `drain_cache` on the cache of a thread. -/
theorem Inv.drain (h : Inv s) (c : ι) :
    Inv { s.setCache c (s.alloc.drainCache (s.cache c) 0).2.1 false with
      alloc := (s.alloc.drainCache (s.cache c) 0).1 } :=
  h.step (x := .drain c 0) (Nat.zero_le _) rfl

/-- A freed OID goes to a cache that has room for it. -/
theorem Inv.store {a : Allocator} {tc : ThreadCache} {b : Bool} {o : ℕ}
    (h : Inv { s.setCache c tc b with alloc := a }) (hlt : tc.nentries < CACHE_N)
    (ho : o ∈ s.held) :
    Inv { s.setCache c (tc.append [o]) false with alloc := a, held := s.held.erase o } := by
  have hcache : ({ s.setCache c tc b with alloc := a } : OidSystem ι).cache c = tc :=
    update_self ..
  have hstep := h.step (x := .free c o) trivial
    (by rw [OidSystem.step, hcache, if_pos ⟨ho, hlt⟩])
  simp only [setCache, update_idem] at hstep
  exact hstep

theorem Inv.contextFree (h : Inv s) {o : ℕ} (ho : o ∈ s.held)
    (hlt : s.Within (.freeOid c o)) :
    Inv (s.contextFree c o) ∧ (s.contextFree c o).alloc.hiwaterMark = s.alloc.hiwaterMark ∧
      (s.contextFree c o).alloc.capacityMark = s.alloc.capacityMark := by
  rw [Within, Allocator.contextFree] at hlt
  rw [OidSystem.contextFree, Allocator.contextFree]
  by_cases hc : (s.cache c).spaceRemaining = 0
  · rw [if_pos hc] at hlt ⊢
    exact ⟨(h.drain c).store hlt ho, Allocator.drainCache_marks _ _ _⟩
  · have hself : { s.setCache c (s.cache c) (s.incomplete c) with alloc := s.alloc } = s := by
      simp only [setCache, update_eq_self]
    rw [if_neg hc] at hlt ⊢
    exact ⟨Inv.store (hself.symm ▸ h) hlt ho, rfl, rfl⟩

/-- A cache that is empty after `drain_cache` is not changed when it is cleared. -/
theorem Inv.contextRevoke (h : Inv s) (hempty : s.Within (.revoke c)) :
    Inv (s.contextRevoke c) := by
  have hdrained := h.drain c
  replace hempty : (s.alloc.drainCache (s.cache c) 0).2.1.nentries = 0 := hempty
  rw [OidSystem.contextRevoke, Allocator.contextRevoke]
  generalize s.alloc.drainCache (s.cache c) 0 = r at *
  obtain ⟨a, ⟨n, entries⟩, done⟩ := r
  subst hempty
  exact hdrained

/-- The capacity grows if it has to, and can. -/
theorem ContextInv.contextAllocate (h : ContextInv s) {mem : Memory}
    (hok : s.ContextOk (.allocOid c mem)) :
    ∃ s' x, s.contextAllocate c mem = some (s', some x) ∧ s'.held = x ::ₘ s.held ∧
      ContextInv s' ∧ (s.alloc.Readable mem → s'.alloc.Readable mem) ∧
      (s'.alloc.capacityMark = s.alloc.capacityMark ∨ s.alloc.NeedsGrowth (s.cache c) ∧
        s'.alloc.capacityMark = 5 * s.alloc.capacityMark / 4) := by
  by_cases hgrow : s.alloc.NeedsGrowth (s.cache c)
  · obtain ⟨s', o, hcall, hgood, -⟩ := h.inv.contextAllocate_grown h.below hok.1 hgrow
    obtain ⟨x, -, rfl, hheld, hinv, hbelow, hcap, hread⟩ := hgood (hok.2 hgrow)
    exact ⟨s', x, hcall, hheld, ⟨hinv, hbelow⟩, fun _ => hread, .inr ⟨hgrow, hcap⟩⟩
  · obtain ⟨s', x, hcall, -, hheld, hinv, hbelow, hcap, hread⟩ :=
      h.inv.contextAllocate_filled h.below hok.1 hgrow
    exact ⟨s', x, hcall, hheld, ⟨hinv, hbelow⟩, hread, .inl hcap⟩

theorem ContextInv.step (h : ContextInv s) {x : ContextAct ι} (hok : s.ContextOk x)
    (hs : s.contextStep x = some s') : ContextInv s' := by
  have hwithin := h.inv.within hok
  cases x with
  | allocOid c mem =>
    obtain ⟨t, x, hcall, -, hinv, -⟩ := h.contextAllocate hok
    rw [contextStep, hcall] at hs
    cases hs
    exact hinv
  | freeOid c o =>
    obtain ⟨ho, hs⟩ := Option.ite_none_right_eq_some.mp hs
    cases hs
    obtain ⟨hinv, hhi, hcap⟩ := h.inv.contextFree ho hwithin
    exact ⟨hinv, by rw [hhi, hcap]; exact h.below⟩
  | revoke c =>
    cases hs
    obtain ⟨hhi, hcap⟩ := s.alloc.drainCache_marks (s.cache c) 0
    refine ⟨h.inv.contextRevoke hwithin, ?_⟩
    show (s.alloc.drainCache (s.cache c) 0).1.hiwaterMark ≤ _
    rw [hhi]
    exact hcap.symm ▸ h.below

/-- **Freeing stays in the cache.**  In every run in which calls that need room find some,
each freed OID is stored in the array and each cache is empty when it is cleared.  At every
state reached the condition for a freed OID is exact, and that for a cache that is cleared is
sufficient, and exact once L2 has no unused bitmap; both are met as long as there are 126
unused bitmaps. -/
theorem cache_within {hiwater : ℕ} {l1 : ℕ → ℕ} {l2 : L2} {entries : ι → ℕ → ℕ}
    {as : List (ContextAct ι)} (hhi : hiwater ≤ 2 ^ 20)
    (hok : Along contextStep ContextOk (init hiwater l1 l2 entries) as)
    (hrun : run contextStep (init hiwater l1 l2 entries) as = some s) :
    Along contextStep Within (init hiwater l1 l2 entries) as ∧
      (∀ c o, s.Within (.freeOid c o) ↔
        (s.cache c).nentries < CACHE_N ∨ ¬ s.alloc.Exhausted) ∧
      (∀ c, s.alloc.HasRoom (s.cache c).nentries → s.Within (.revoke c)) ∧
      (s.alloc.l2.valid → s.alloc.l2.firstUnused = L2_CAPACITY →
        ∀ c, s.Within (.revoke c) ↔ s.alloc.HasRoom (s.cache c).nentries) ∧
      (CACHE_N ≤ s.alloc.unusedMaps → ∀ c o, s.Within (.freeOid c o) ∧ s.Within (.revoke c)) := by
  have hinit : ContextInv (init hiwater l1 l2 entries) :=
    ⟨inv_init (by omega) l1 l2 entries, hhi⟩
  have h : ContextInv s := run_invariant_along
    (fun hok hs hi => ContextInv.step hi hok hs) hok hrun hinit
  refine ⟨hok.of_invariant (fun hok hs hi => ContextInv.step hi hok hs)
    (fun hi hok => hi.inv.within hok) hinit, h.inv.within_freeOid_iff,
    fun c => (h.inv.within_revoke c).1, fun hv hused c => (h.inv.within_revoke c).2 hv hused,
    fun hunused c o => ⟨(h.inv.within_freeOid_iff c o).mpr (.inr fun hex => ?_),
      (h.inv.within_revoke c).1 ?_⟩⟩
  · -- an exhausted allocator has no unused bitmap
    rw [Allocator.unusedMaps, if_pos hex.2.1, hex.2.2.1, CACHE_N] at hunused
    omega
  · have hle := h.inv.caches c
    rw [Allocator.HasRoom]
    omega

/-- A thread takes an OID, gives it back, and its cache is revoked. -/
theorem cache_within_returned : ∃ s : OidSystem Unit,
    run contextStep newFile [.allocOid () fun _ => none, .freeOid () 63, .revoke ()] =
        some s ∧
      Along contextStep Within newFile
        [.allocOid () fun _ => none, .freeOid () 63, .revoke ()] := by
  have hfirst : (newFile.contextStep (.allocOid () fun _ => none)).map
      (fun s => (s.cache ()).nentries) = some 63 := by decide +kernel
  have hsecond : ((newFile.contextStep (.allocOid () fun _ => none)).bind
      (·.contextStep (.freeOid () 63))).map (fun s => ((s.cache ()).nentries, s.alloc.l1Size)) =
      some (64, 0) := by decide +kernel
  have hok : Along contextStep ContextOk newFile
      [.allocOid () fun _ => none, .freeOid () 63, .revoke ()] := by
    refine ⟨⟨fun _ _ hv => absurd rfl hv, fun _ => ⟨by decide, by decide⟩⟩, fun s₁ h₁ => ?_⟩
    rw [h₁] at hfirst hsecond
    refine ⟨.inl ?_, fun s₂ h₂ => ?_⟩
    · have hn : (s₁.cache ()).nentries = 63 := Option.some.inj hfirst
      rw [hn]
      decide
    · rw [Option.bind_some, h₂] at hsecond
      obtain ⟨hn, hl1⟩ := Prod.mk.inj (Option.some.inj hsecond)
      refine ⟨?_, fun _ _ => trivial⟩
      show s₂.alloc.HasRoom (s₂.cache ()).nentries
      rw [Allocator.HasRoom, hn, hl1, L1_CAPACITY]
      omega
  obtain ⟨s, hs⟩ : ∃ s : OidSystem Unit, run contextStep newFile
      [.allocOid () fun _ => none, .freeOid () 63, .revoke ()] = some s :=
    Option.isSome_iff_exists.mp (by decide +kernel)
  exact ⟨s, hs, (cache_within (by norm_num) hok hs).1⟩

end OidSystem

/-! ### Too many frees -/

/-- L2 holds at most 16 OIDs in each of its bitmaps. -/
theorem L2.Inv.card_le {l : L2} (h : l.Inv) :
    (l.assignedOids + l.listedOids).card ≤ 16 * (L2_CAPACITY - 1) := by
  have hassigned : l.assignedOids.card ≤
      16 * (∑ s ∈ Finset.range L2_CAPACITY, l.swathNumber s).card := by
    rw [assignedOids, Multiset.card_sum, Multiset.card_sum, Finset.mul_sum]
    refine Finset.sum_le_sum fun s hs => ?_
    rw [swathOids, swathNumber]
    by_cases ha : l.assignments s = 0
    · simp [ha]
    · have := (h.assigned s (Finset.mem_range.mp hs) ha).2
      simp only [ha, if_false, Multiset.card_map, Multiset.coe_card, Multiset.card_singleton]
      omega
  have hlisted := h.card_listedOids
  have hsize := h.size_lt
  have hfirst := h.first_le
  rw [Multiset.card_add]
  omega

namespace OidSystem

/-- Every OID below the high water mark is held, or there is room for it somewhere. -/
theorem Inv.hiwater_le {s : OidSystem Unit} (h : Inv s) :
    s.alloc.hiwaterMark ≤ s.held.card + (s.cache ()).nentries + s.alloc.l1Size +
      if s.alloc.l2.valid then 16 * (L2_CAPACITY - 1) else 0 := by
  have hcard := congrArg Multiset.card h.partition
  rw [places, Allocator.freeOids, Multiset.card_add, Multiset.card_add, Multiset.card_add,
    card_seg, Multiset.card_range, Finset.univ_unique, Finset.sum_singleton, ThreadCache.oids,
    card_seg] at hcard
  have hl2 : s.alloc.l2Oids.card ≤ if s.alloc.l2.valid then 16 * (L2_CAPACITY - 1) else 0 := by
    rw [Allocator.l2Oids]
    split
    next hv => exact (h.alloc.l2 hv).card_le
    next => exact le_rfl
  have hcache : (s.cache default).nentries = (s.cache ()).nentries := rfl
  omega

/-- One thread can go on taking OIDs. -/
structure Taking (mem : Memory) (s : OidSystem Unit) : Prop where
  context : ContextInv s
  readable : s.alloc.Readable mem
  four_le : 4 ≤ s.alloc.capacityMark
  capacity_lt : s.alloc.capacityMark < 2 ^ 29

theorem taking_newFile (mem : Memory) : Taking mem newFile :=
  ⟨⟨inv_init (by norm_num) _ _ _, Nat.zero_le _⟩, fun hv => absurd rfl hv, by decide, by decide⟩

/-- The capacity has to grow only when it is not much larger than what is held. -/
theorem Inv.capacity_lt {s : OidSystem Unit} (h : Inv s)
    (hgrow : s.alloc.NeedsGrowth (s.cache ())) :
    s.alloc.capacityMark < s.held.card + 2 ^ 21 := by
  have hle := h.hiwater_le
  have hl1 := h.alloc.l1_le
  have hshort := hgrow.2.1
  rw [L1_CAPACITY] at hl1
  rw [FILL_TARGET] at hshort
  rw [hgrow.1, L2_CAPACITY] at hle
  split at hle <;> omega

theorem Taking.allocOid {mem : Memory} {s : OidSystem Unit} (h : Taking mem s)
    (hcard : s.held.card < 2 ^ 21) :
    ∃ s', s.contextStep (.allocOid () mem) = some s' ∧ Taking mem s' ∧
      s'.held.card = s.held.card + 1 := by
  have hfour := h.four_le
  have hlt := h.capacity_lt
  obtain ⟨s', x, hcall, hheld, hinv, hread, hcap⟩ := h.context.contextAllocate (c := ())
    ⟨fun _ _ => h.readable, fun _ => ⟨hfour, by omega⟩⟩
  have hbounds : 4 ≤ s'.alloc.capacityMark ∧ s'.alloc.capacityMark < 2 ^ 29 := by
    obtain hsame | ⟨hgrow, hgrown⟩ := hcap
    · omega
    · have := h.context.inv.capacity_lt hgrow
      omega
  refine ⟨s', ?_, ⟨hinv, hread h.readable, hbounds.1, hbounds.2⟩,
    by rw [hheld, Multiset.card_cons]⟩
  rw [contextStep, hcall]
  rfl

/-- Any number of OIDs up to two million can be held at once. -/
theorem exists_taking (mem : Memory) : ∀ n ≤ 2 ^ 21, ∃ as s,
    run contextStep newFile as = some s ∧ Taking mem s ∧ s.held.card = n := by
  intro n
  induction n with
  | zero => exact fun _ => ⟨[], newFile, rfl, taking_newFile mem, rfl⟩
  | succ n ih =>
    intro hn
    obtain ⟨as, s, hrun, h, hcard⟩ := ih (by omega)
    obtain ⟨s', hs, h', hcard'⟩ := h.allocOid (by omega)
    exact ⟨_, s', run_snoc.mpr ⟨s, hrun, hs⟩, h', by omega⟩

/-- A thread that frees all that is held comes to an end, or to a store outside of the
array. -/
theorem Inv.freeAll : ∀ (n : ℕ) {s : OidSystem Unit}, Inv s → s.held.card = n →
    (∃ as s', run contextStep s as = some s' ∧ Inv s' ∧ s'.held.card = 0 ∧
      s'.alloc.hiwaterMark = s.alloc.hiwaterMark) ∨
    ∃ as s' o, run contextStep s as = some s' ∧ o ∈ s'.held ∧ ¬ s'.Within (.freeOid () o) := by
  intro n
  induction n with
  | zero => exact fun h hcard => .inl ⟨[], _, rfl, h, hcard, rfl⟩
  | succ n ih =>
    intro s h hcard
    obtain ⟨o, ho⟩ := Multiset.card_pos_iff_exists_mem.mp (by omega : 0 < s.held.card)
    by_cases hw : s.Within (.freeOid () o)
    · obtain ⟨hinv, hhi, -⟩ := h.contextFree ho hw
      have hs : s.contextStep (.freeOid () o) = some (s.contextFree () o) := if_pos ho
      have hcard' : (s.contextFree () o).held.card = n := by
        show (s.held.erase o).card = n
        rw [Multiset.card_erase_of_mem ho, hcard]
        rfl
      obtain ⟨as, s', hrun, hinv', hzero, hhi'⟩ | ⟨as, s', o', hrun, hbad⟩ := ih hinv hcard'
      · exact .inl ⟨.freeOid () o :: as, s', run_cons_eq_some.mpr ⟨_, hs, hrun⟩, hinv', hzero,
          hhi'.trans hhi⟩
      · exact .inr ⟨.freeOid () o :: as, s', o', run_cons_eq_some.mpr ⟨_, hs, hrun⟩, hbad⟩
    · exact .inr ⟨[], s, o, rfl, ho, hw⟩

/-- A thread allocates 1065057 OIDs and frees them: they are more than the cache, L1 and the
bitmaps of L2 can hold, so that one of them is stored past the end of the cache. -/
theorem cache_overrun : ∃ as s o, run contextStep newFile as = some s ∧ o ∈ s.held ∧
    CACHE_N ≤ (s.alloc.contextFree (s.cache ()) o).2.2 := by
  obtain ⟨as, s, hrun, h, hcard⟩ := exists_taking (fun _ => none) 1065057 (by norm_num)
  have hhi := congrArg Multiset.card h.context.inv.partition
  rw [places, Multiset.card_add, Multiset.card_add, Multiset.card_range] at hhi
  obtain ⟨bs, s', hrun', hinv, hzero, hsame⟩ | ⟨bs, s', o, hrun', ho, hbad⟩ :=
    h.context.inv.freeAll 1065057 hcard
  · have hle := hinv.hiwater_le
    have hl1 := hinv.alloc.l1_le
    have hn := hinv.caches ()
    rw [L1_CAPACITY] at hl1
    rw [CACHE_N] at hn
    rw [L2_CAPACITY] at hle
    split at hle <;> omega
  · exact ⟨as ++ bs, s', o, run_append.mpr ⟨s, hrun, hrun'⟩, ho, Nat.le_of_not_lt hbad⟩

end OidSystem

end PreemptDB
