/-
`_drain_l2` conserves OIDs unless its third preference makes L3 smaller than its contents.

* `AllocatorL3.Inv`, `AllocatorL3.oids` — an allocator and its free OIDs;
* `AllocatorL3.ThirdTried` — when L3 changes its size;
* `AllocatorL3.Inv.drainL2_spec` — the call.
-/
import PreemptDB.L3Words

namespace PreemptDB

open Segment

section Scan

variable {l l' : L2}

/-- If a scan ends below its target, then its filter has seen the whole list. -/
theorem L2.Inv.mem_scanBases_iff {mem : Memory} {f : ℕ → Bool} : ∀ (n : ℕ) {l : L2} {target : ℤ}
    {r : ℕ} {l' : L2} {xs : List ℕ} {left : ℤ}, L2.Inv l → l.size ≤ r + n →
    l.scan mem f n target r = some (l', xs, left) → 0 < left → ∀ b,
    b ∈ l.scanBases f n target r ↔ ∃ j, r ≤ j ∧ j < l.size ∧ l.slots j / 2 ^ 16 * 2 ^ 16 = b := by
  intro n
  induction n with
  | zero =>
    intro l target r l' xs left _ hle _ _ b
    refine iff_of_false (by simp [L2.scanBases]) ?_
    rintro ⟨j, hr, hj, -⟩
    omega
  | succ n ih =>
    intro l target r l' xs left h hle hscan hleft b
    have hsize := h.size_lt
    rw [L2.scan] at hscan
    rw [L2.scanBases]
    by_cases hc : 0 < target ∧ r < l.size
    · rw [if_pos hc] at hscan ⊢
      dsimp only at hscan ⊢
      rw [List.mem_cons]
      by_cases hf : f (l.slots (l.size - 1) / 2 ^ 16 * 2 ^ 16) = true
      · rw [if_pos hf] at hscan ⊢
        simp only [Option.bind_eq_bind, Option.bind_eq_some_iff] at hscan
        obtain ⟨offsets, -, ⟨l₁, xs₁, left₁⟩, hrest, heq⟩ := hscan
        cases heq
        have hslots : ∀ j < l.size - 1, l.popFull.slots j = l.slots j := fun j hj =>
          Function.update_of_ne (by omega) _ _
        rw [ih (h.popFull_spec (by omega)).1 (show l.size - 1 ≤ r + n by omega) hrest hleft]
        change _ ∨ (∃ j, r ≤ j ∧ j < l.size - 1 ∧ _) ↔ _
        constructor
        · rintro (rfl | ⟨j, hr, hj, rfl⟩)
          · exact ⟨l.size - 1, by omega, by omega, rfl⟩
          · exact ⟨j, hr, by omega, by rw [hslots j hj]⟩
        · rintro ⟨j, hr, hj, rfl⟩
          rcases Nat.eq_or_lt_of_le (Nat.le_sub_one_of_lt hj) with rfl | hlt
          · exact .inl rfl
          · exact .inr ⟨j, hr, hlt, by rw [hslots j hlt]⟩
      · -- the last bitset changes places with the one at `r`
        rw [if_neg hf] at hscan ⊢
        rw [ih (h.swapReject_spec hc.2).1 (show l.size ≤ r + 1 + n by omega) hscan hleft,
          L2.swapReject_slots]
        change _ ∨ (∃ j, r + 1 ≤ j ∧ j < l.size ∧ _) ↔ _
        simp only [Function.comp_apply]
        constructor
        · rintro (rfl | ⟨j, hr, hj, rfl⟩)
          · exact ⟨l.size - 1, by omega, by omega, rfl⟩
          · by_cases hlast : j = l.size - 1
            · rw [hlast, Equiv.swap_apply_left]
              exact ⟨r, le_rfl, hc.2, rfl⟩
            · rw [Equiv.swap_apply_of_ne_of_ne hlast (by omega)]
              exact ⟨j, by omega, hj, rfl⟩
        · rintro ⟨j, hr, hj, rfl⟩
          by_cases hlast : j = l.size - 1
          · exact .inl (by rw [hlast])
          refine .inr ?_
          rcases Nat.eq_or_lt_of_le hr with rfl | hlt
          · exact ⟨l.size - 1, by omega, by omega, by rw [Equiv.swap_apply_left]⟩
          · exact ⟨j, hlt, hj, by rw [Equiv.swap_apply_of_ne_of_ne hlast (by omega)]⟩
    · rw [if_neg hc] at hscan ⊢
      cases hscan
      refine iff_of_false (List.not_mem_nil) ?_
      rintro ⟨j, hr, hj, -⟩
      omega

theorem biggest_le_iff (bases : List ℕ) (m : ℕ) :
    biggest bases ≤ m ↔ ∀ b ∈ bases, (b + 2 ^ 16) % 2 ^ 32 ≤ m := by
  suffices hgen : ∀ (bases : List ℕ) (k : ℕ),
      bases.foldl (fun b x => max b ((x + 2 ^ 16) % 2 ^ 32)) k ≤ m ↔
        k ≤ m ∧ ∀ b ∈ bases, (b + 2 ^ 16) % 2 ^ 32 ≤ m from
    (hgen bases 0).trans (and_iff_right (Nat.zero_le m))
  intro bases
  induction bases with
  | nil => simp
  | cons x xs ih =>
    intro k
    rw [List.foldl_cons, ih, max_le_iff, List.forall_mem_cons, and_assoc]

/-- The end of the last swath with a full bitset. -/
def L2.fullEnd (l : L2) : ℕ := l.listedOids.toFinset.sup fun x => x / 2 ^ 16 * 2 ^ 16 + 2 ^ 16

theorem L2.mem_listedOids (hn : ∀ b, (l.maps b).Narrow) {x : ℕ} (hx : x ∈ l.listedOids) :
    ∃ j < l.size, l.slots j / 2 ^ 16 = x / 2 ^ 16 := by
  obtain ⟨j, hj, hx⟩ := Multiset.mem_sum.mp hx
  obtain ⟨v, hv, rfl⟩ := Multiset.mem_map.mp hx
  have hlt := hn _ v (SparseBitset.values_subset _ hv)
  exact ⟨j, Finset.mem_range.mp hj, by omega⟩

theorem L2.mem_assignedOids (hn : ∀ b, (l.maps b).Narrow) {x : ℕ} (hx : x ∈ l.assignedOids) :
    x / 2 ^ 16 < L2_CAPACITY ∧ l.assignments (x / 2 ^ 16) ≠ 0 := by
  obtain ⟨s, hs, hx⟩ := Multiset.mem_sum.mp hx
  rw [L2.swathOids] at hx
  split at hx
  · exact absurd hx (Multiset.notMem_zero x)
  next ha =>
    obtain ⟨v, hv, rfl⟩ := Multiset.mem_map.mp hx
    have hlt := hn _ v (SparseBitset.values_subset _ hv)
    rw [show (s * 2 ^ 16 + v) / 2 ^ 16 = s by omega]
    exact ⟨Finset.mem_range.mp hs, ha⟩

/-- `biggest` is the end of the last full bitset, if no end wraps around. -/
theorem L2.Inv.biggest_eq {mem : Memory} {f : ℕ → Bool} {target left : ℤ} {xs : List ℕ}
    (h : l.Inv) (hn : ∀ b, (l.maps b).Narrow) (hlt : ∀ x ∈ l.listedOids, x < 2 ^ 32 - 2 ^ 16)
    (hscan : l.scan mem f l.size target 0 = some (l', xs, left)) (hleft : 0 < left) :
    biggest (l.scanBases f l.size target 0) = l.fullEnd := by
  have hbases := L2.Inv.mem_scanBases_iff l.size h (Nat.zero_add _).ge hscan hleft
  refine eq_of_forall_ge_iff fun m => ?_
  rw [biggest_le_iff, L2.fullEnd, Finset.sup_le_iff]
  constructor
  · intro hall x hx
    have hx := Multiset.mem_toFinset.mp hx
    obtain ⟨j, hj, hbase⟩ := L2.mem_listedOids hn hx
    have hle := hall _ ((hbases _).mpr ⟨j, Nat.zero_le j, hj, rfl⟩)
    have := hlt x hx
    omega
  · intro hall b hb
    obtain ⟨j, -, hj, rfl⟩ := (hbases b).mp hb
    -- a full bitset has an OID in it
    obtain ⟨v, hv⟩ := List.exists_mem_of_length_pos (by rw [(h.full j hj).2]; norm_num)
    have hx : l.slots j / 2 ^ 16 * 2 ^ 16 + v ∈ l.listedOids :=
      Multiset.mem_sum.mpr ⟨j, Finset.mem_range.mpr hj, Multiset.mem_map.mpr ⟨v, hv, rfl⟩⟩
    have hle := hall _ (Multiset.mem_toFinset.mpr hx)
    have hv16 := hn _ v (SparseBitset.values_subset _ hv)
    have := hlt _ hx
    omega

end Scan

namespace Allocator

/-- The entries of all bitsets are of 16 bits. -/
def Narrow (a : Allocator) : Prop := ∀ b, (a.l2.maps b).Narrow

variable {a : Allocator}

theorem Narrow.drainOid (h : a.Narrow) (x : ℕ) : (a.drainOid x).Narrow := by
  have hx : x % 2 ^ 16 < 2 ^ 16 := Nat.mod_lt _ (by norm_num)
  have hupdate : ∀ (i : ℕ) (m : SparseBitset), m.Narrow →
      ∀ b, (Function.update a.l2.maps i m b).Narrow := by
    intro i m hm b
    by_cases hb : b = i
    · rwa [hb, Function.update_self]
    · rw [Function.update_of_ne hb]
      exact h b
  rw [Allocator.drainOid]
  cases hins : a.l2.insertOid x with
  | none => exact h
  | some l2 =>
    show ∀ b, (l2.maps b).Narrow
    rw [L2.insertOid] at hins
    dsimp only at hins
    split at hins
    · split at hins <;> cases hins <;> exact hupdate _ _ ((h _).insert hx)
    · split at hins
      · cases hins
      · cases hins
        exact hupdate _ _ (SparseBitset.narrow_init1 hx)

theorem Narrow.drainLoop : ∀ (n j : ℕ) {a : Allocator}, a.Narrow → (drainLoop n j a).Narrow := by
  intro n
  induction n with
  | zero => exact fun _ _ h => h
  | succ n ih => exact fun j a h => ih (j + 1) (h.drainOid _)

theorem Narrow.drainL1 (h : a.Narrow) (target : ℕ) : (a.drainL1 target).Narrow := by
  refine Narrow.drainLoop _ _ ?_
  show ∀ b, ((if a.l2.valid then a else { a with l2 := a.l2.init }).l2.maps b).Narrow
  split <;> exact h

theorem Narrow.drainCache (h : a.Narrow) (tc : ThreadCache) (target : ℕ) :
    (a.drainCache tc target).1.Narrow := by
  show (a.makeRoom tc.nentries).Narrow
  rw [Allocator.makeRoom]
  split
  · exact h.drainL1 _
  · exact h

end Allocator

namespace AllocatorL3

/-- The OIDs in L1, L2 and L3. -/
def oids (a : AllocatorL3) : Multiset ℕ := a.upper.freeOids + a.l3.oids

/-- The OIDs in the allocator and those staged on their way through it are different. -/
structure Inv (a : AllocatorL3) (staged : Multiset ℕ) : Prop where
  upper : a.upper.Inv
  shape : a.l3.Shape
  stored : a.l3.Stored
  narrow : a.upper.Narrow
  nodup : (a.oids + staged).Nodup
  lt : ∀ x ∈ a.oids + staged, x < a.upper.hiwaterMark

variable {a : AllocatorL3} {staged : Multiset ℕ} {mem : Memory}

theorem Inv.card_le (h : Inv a staged) : (a.oids + staged).card ≤ a.upper.hiwaterMark := by
  have hle : a.oids + staged ≤ Multiset.range a.upper.hiwaterMark :=
    (Multiset.le_iff_subset h.nodup).mpr fun x hx => Multiset.mem_range.mpr (h.lt x hx)
  exact (Multiset.card_le_card hle).trans (Multiset.card_range _).le

theorem Inv.l3_card_lt (h : Inv a staged) : a.l3.oids.card < 2 ^ 32 := by
  have hle : a.l3.oids ≤ a.oids + staged :=
    (Multiset.le_add_left _ _).trans (Multiset.le_add_right _ _)
  exact ((Multiset.card_le_card hle).trans h.card_le).trans_lt h.upper.hiwater_lt

/-- Another allocator with no other OIDs. -/
theorem Inv.of_le {a' : AllocatorL3} {staged' : Multiset ℕ} (h : Inv a staged)
    (hupper : a'.upper.Inv) (hshape : a'.l3.Shape) (hstored : a'.l3.Stored)
    (hnarrow : a'.upper.Narrow) (hoids : a'.oids + staged' ≤ a.oids + staged)
    (hhi : a'.upper.hiwaterMark = a.upper.hiwaterMark) : Inv a' staged' :=
  ⟨hupper, hshape, hstored, hnarrow, Multiset.nodup_of_le hoids h.nodup,
    fun x hx => hhi ▸ h.lt x (Multiset.mem_of_le hoids hx)⟩

section Drain

/-- `l3_end`, once there is an L3. -/
def endOid (a : AllocatorL3) : ℕ :=
  (if a.l3.valid then a.l3.capacity else a.newCapacity) * 64 % 2 ^ 32

/-- The OIDs of L2 whose swaths fit in L3. -/
def movable (a : AllocatorL3) : Multiset ℕ :=
  a.upper.l2Oids.filter fun x => fits a.endOid (x / 2 ^ 16 * 2 ^ 16) = true

/-- The third preference of `_drain_l2` is tried: more OIDs are wanted than fit in L3, and
there are full bitsets. -/
def ThirdTried (a : AllocatorL3) (n : ℕ) : Prop :=
  (a.movable.card : ℤ) < toInt32 n ∧ a.upper.l2.listedOids ≠ 0

/-- Then L3 ends where the last full bitset does: the OIDs in it, and those that come to it
first, are below that. -/
def KeepsWords (a : AllocatorL3) (n : ℕ) : Prop :=
  a.ThirdTried n → ∀ x ∈ a.l3.oids + a.movable, x < a.upper.l2.fullEnd

/-- The scan hand is below the new end, too. -/
def KeepsHand (a : AllocatorL3) (n : ℕ) : Prop :=
  a.ThirdTried n → a.l3.valid → a.l3.scanHand < a.upper.l2.fullEnd / 64

/-- `_drain_l2` can read L2, the end of no swath wraps around, and the backing array has
room for the new end. -/
structure CanDrain (mem : Memory) (a : AllocatorL3) (n : ℕ) : Prop where
  valid : 0 < toInt32 n → a.upper.l2.valid
  readable : a.upper.Readable mem
  hiwater : a.upper.hiwaterMark ≤ 2 ^ 32 - 2 ^ 16
  store : a.ThirdTried n → a.l3.Fits (a.upper.l2.fullEnd / 64)

theorem Inv.l2_lt (h : Inv a 0) (hhi : a.upper.hiwaterMark ≤ 2 ^ 32 - 2 ^ 16) :
    ∀ x ∈ a.upper.l2Oids, x < 2 ^ 32 - 2 ^ 16 := by
  intro x hx
  refine lt_of_lt_of_le (h.lt x ?_) hhi
  rw [add_zero, oids, Allocator.freeOids]
  exact Multiset.mem_add.mpr (.inl (Multiset.mem_add.mpr (.inr hx)))

/-- There is an L3 now. -/
theorem Inv.createL3_spec (h : Inv a 0) :
    ∃ a', a.createL3 = .ok a' ∧ Inv a' 0 ∧ a'.upper = a.upper ∧ a'.l3.oids = a.l3.oids ∧
      a'.l3.endOid = a.endOid ∧ (a.l3.Inv → a'.l3.Inv) ∧
      (a'.l3.valid → a'.l3.scanHand = if a.l3.valid then a.l3.scanHand else 0) ∧
      a.l3.store.size ≤ a'.l3.store.size := by
  rw [createL3, endOid]
  by_cases hc : a.l3.valid
  · rw [if_pos hc, if_pos hc]
    exact ⟨a, rfl, h, rfl, rfl, rfl, id, fun _ => (if_pos hc).symm, le_rfl⟩
  have hcap : a.l3.capacity = 0 := not_not.mp hc
  have hk : a.newCapacity ≤ 2 ^ 18 := by
    rw [newCapacity]
    omega
  obtain ⟨l3, hinit, hshape, hstored, hcap', hoids, hhand, hmono, hkeep⟩ :=
    h.shape.init_spec h.stored (k := a.newCapacity) (by omega) (.inl (by omega))
  have habove : a.l3.above a.newCapacity = 0 := by
    rw [L3.above_eq_zero_iff, hcap]
    exact fun i _ hi => absurd hi (Nat.not_lt_zero i)
  rw [habove, add_zero] at hoids
  rw [if_neg hc, if_neg hc, hinit]
  refine ⟨⟨a.upper, l3⟩, rfl, h.of_le h.upper hshape hstored h.narrow ?_ rfl, rfl, hoids.symm, ?_,
    fun hi => hkeep hi habove fun hv => absurd hv hc, fun hv => ?_, hmono (by omega)⟩
  · rw [oids, oids, hoids]
  · rw [L3.endOid, hcap']
  · have hne : a.newCapacity ≠ 0 := hcap' ▸ hv
    rw [hhand, L3.resize, if_pos (by omega)]

/-- OIDs `xs` go from L2 to L3. -/
structure Drained (mem : Memory) (a a' : AllocatorL3) (xs : Multiset ℕ) : Prop where
  inv : Inv a' 0
  readable : a'.upper.Readable mem
  upper : a'.upper = { a.upper with l2 := a'.upper.l2 }
  l2 : a.upper.l2Oids = a'.upper.l2Oids + xs
  l3 : a'.l3.oids = a.l3.oids + xs
  capacity : a'.l3.capacity = a.l3.capacity
  hand : a'.l3.scanHand = a.l3.scanHand
  store : a'.l3.store = a.l3.store
  keep : a.l3.Inv → a'.l3.Inv

theorem Drained.oids {a' : AllocatorL3} {xs : Multiset ℕ} (h : Drained mem a a' xs) :
    a'.oids = a.oids := by
  rw [AllocatorL3.oids, AllocatorL3.oids, Allocator.freeOids, Allocator.freeOids, h.l3, h.l2,
    h.upper]
  abel

/-- OIDs go from L2 to words that L3 has. -/
theorem Inv.sink (h : Inv a 0) {l2 : L2} (xs : List ℕ) (hl2 : l2.valid → l2.Inv)
    (hr : l2.valid → l2.Readable mem) (hmaps : l2.maps = a.upper.l2.maps)
    (hoids : a.upper.l2Oids = Allocator.l2Oids { a.upper with l2 := l2 } + (xs : Multiset ℕ))
    (hroom : ∀ x ∈ xs, x / 64 < a.l3.capacity) :
    ∃ l3, a.l3.insertAll xs = .ok l3 ∧ Drained mem a ⟨{ a.upper with l2 := l2 }, l3⟩ xs := by
  have hxs : a.l3.oids + (xs : Multiset ℕ) ≤ a.oids + 0 := by
    rw [add_zero, oids, Allocator.freeOids, hoids,
      show Segment.seg a.upper.l1 0 a.upper.l1Size +
        (Allocator.l2Oids { a.upper with l2 := l2 } + (xs : Multiset ℕ)) + a.l3.oids =
      Segment.seg a.upper.l1 0 a.upper.l1Size + Allocator.l2Oids { a.upper with l2 := l2 } +
        (a.l3.oids + (xs : Multiset ℕ)) by abel]
    exact Multiset.le_add_left _ _
  have hcard := (Multiset.card_le_card hxs).trans h.card_le
  obtain ⟨l3, heq, hshape, hl3, hcap, hhand, hstore, hinv⟩ := h.shape.insertAll_spec xs hroom
    (Multiset.nodup_of_le hxs h.nodup) (hcard.trans_lt h.upper.hiwater_lt)
  have hsame : oids ⟨{ a.upper with l2 := l2 }, l3⟩ = a.oids := by
    show Segment.seg a.upper.l1 0 a.upper.l1Size + Allocator.l2Oids { a.upper with l2 := l2 } +
      l3.oids = _
    rw [hl3, oids, Allocator.freeOids, hoids]
    abel
  refine ⟨l3, heq, h.of_le ⟨h.upper.l1_le, h.upper.hiwater_lt, h.upper.capacity_lt, hl2⟩ hshape
    (h.stored.congr hcap hstore) (fun b => ?_) (by rw [hsame]) rfl, hr, rfl, hoids, hl3, hcap,
    hhand, hstore, hinv⟩
  show (l2.maps b).Narrow
  rw [hmaps]
  exact h.narrow b

/-- A swath that fits is in the words of L3, unless its end wraps around. -/
theorem room_of_fits {l : L3} (hcap : l.capacity < 2 ^ 26) {x : ℕ} (hx : x < 2 ^ 32 - 2 ^ 16)
    (hfits : fits l.endOid (x / 2 ^ 16 * 2 ^ 16) = true) : x / 64 < l.capacity := by
  have hle := of_decide_eq_true hfits
  rw [L3.endOid] at hle
  omega

/-- The first preference moves non-full bitsets that fit, and all of them if it does not
reach its target. -/
theorem Inv.drainFirst_spec (h : Inv a 0) {n : ℕ} (hv : 0 < toInt32 n → a.upper.l2.valid)
    (hr : a.upper.Readable mem) (hhi : a.upper.hiwaterMark ≤ 2 ^ 32 - 2 ^ 16) :
    ∃ a' left, ∃ xs : List ℕ, a.drainFirst mem n = .ok (a', left) ∧ Drained mem a a' xs ∧
      left = toInt32 n - xs.length ∧ (∀ x ∈ xs, fits a.l3.endOid (x / 2 ^ 16 * 2 ^ 16) = true) ∧
      a'.upper.l2.listedOids = a.upper.l2.listedOids ∧
      (0 < left → a'.upper.l2.valid ∧
        ∀ x ∈ a'.upper.l2.assignedOids, ¬ fits a.l3.endOid (x / 2 ^ 16 * 2 ^ 16) = true) := by
  rw [drainFirst, if_neg fun hc => hc.2 (hv hc.1)]
  by_cases htarget : 0 < toInt32 n
  · have hv' := hv htarget
    obtain ⟨l', xs, i', heq, hinv, hr', hmaps, hassigned, hlisted, -, hacc, -, hall⟩ :=
      L2.Inv.scavengeLoop_filtered (fits a.l3.endOid) L2_CAPACITY (toInt32 n) 0 (h.upper.l2 hv')
        (hr hv')
    let l2 : L2 := { l' with scanHand := (l'.scanHand + i') % 2 ^ 32 }
    have hl2 : l2.Inv :=
      ⟨hinv.first_pos, hinv.first_le, hinv.numbers, hinv.assigned, hinv.full, hinv.loose⟩
    have hv₂ : l2.valid := hinv.first_pos.ne'
    have hscavenge : a.upper.l2.scavenge mem (fits a.l3.endOid) (toInt32 n) =
        some (l2, xs, toInt32 n - xs.length) := by
      rw [L2.scavenge, heq]
      rfl
    have hoids : a.upper.l2Oids =
        Allocator.l2Oids { a.upper with l2 := l2 } + (xs : Multiset ℕ) := by
      rw [Allocator.l2Oids, Allocator.l2Oids, if_pos hv', if_pos hv₂, hassigned]
      show _ = l'.assignedOids + l'.listedOids + _
      rw [hlisted]
      abel
    obtain ⟨l3', heq', hd⟩ := h.sink xs (fun _ => hl2) (fun _ => ⟨hr'.assigned, hr'.full⟩) hmaps
      hoids fun x hx => room_of_fits h.shape.capacity_lt (h.l2_lt hhi x (by
        rw [hoids]
        exact Multiset.mem_add.mpr (.inr hx))) (hacc h.narrow x hx)
    refine ⟨⟨{ a.upper with l2 := l2 }, l3'⟩, toInt32 n - xs.length, xs, ?_, hd, rfl,
      hacc h.narrow, hlisted, fun hlt => ⟨hv₂, fun x hx hf => ?_⟩⟩
    · rw [hscavenge]
      simp only [readL2, Option.elim_some, bind, Except.bind, heq']
      rfl
    · obtain ⟨hs, ha⟩ := L2.mem_assignedOids (l := l') (fun b => hmaps ▸ h.narrow b) hx
      obtain ⟨k, hk, hswath⟩ := L2.exists_swath a.upper.l2.scanHand hs
      have hzero := hall (Int.sub_pos.mp hlt) k (Nat.zero_le k) (hk.trans_eq (Nat.zero_add _).symm)
      rw [hswath] at hzero
      exact ha (hzero hf)
  · -- nothing to do
    have hle : toInt32 n ≤ 0 := not_lt.mp htarget
    let l2 : L2 := { a.upper.l2 with scanHand := (a.upper.l2.scanHand + 0) % 2 ^ 32 }
    have hl2 : l2.valid → l2.Inv := fun hv' =>
      ⟨(h.upper.l2 hv').first_pos, (h.upper.l2 hv').first_le, (h.upper.l2 hv').numbers,
        (h.upper.l2 hv').assigned, (h.upper.l2 hv').full, (h.upper.l2 hv').loose⟩
    have hloop : L2.scavengeLoop mem (fits a.l3.endOid) L2_CAPACITY a.upper.l2 (toInt32 n) 0 =
        some (a.upper.l2, [], toInt32 n, 0) := by
      cases L2_CAPACITY with
      | zero => rfl
      | succ n => exact if_neg hle.not_gt
    have hscavenge : a.upper.l2.scavenge mem (fits a.l3.endOid) (toInt32 n) =
        some (l2, [], toInt32 n) := by
      rw [L2.scavenge, hloop]
      rfl
    obtain ⟨l3', heq', hd⟩ := h.sink [] hl2 (fun hv' => ⟨(hr hv').assigned, (hr hv').full⟩)
      rfl (add_zero _).symm (by simp)
    refine ⟨_, toInt32 n, [], ?_, hd, by simp, by simp, rfl, fun hlt => absurd hlt htarget⟩
    rw [hscavenge]
    simp only [readL2, Option.elim_some, bind, Except.bind, heq']
    rfl

/-- OIDs of full bitsets have been taken. -/
theorem l2Oids_of_listed {u : Allocator} {l2 : L2} {xs : Multiset ℕ} (hv : u.l2.valid)
    (hv' : l2.valid) (hassigned : l2.assignedOids = u.l2.assignedOids)
    (hlisted : u.l2.listedOids = l2.listedOids + xs) :
    u.l2Oids = Allocator.l2Oids { u with l2 := l2 } + xs := by
  rw [Allocator.l2Oids, Allocator.l2Oids, if_pos hv, if_pos hv', hlisted, hassigned, add_assoc]

/-- The second preference does the same with full bitsets, and finds their end. -/
theorem Inv.drainSecond_spec (h : Inv a 0) (hv : a.upper.l2.valid) (hr : a.upper.Readable mem)
    (hhi : a.upper.hiwaterMark ≤ 2 ^ 32 - 2 ^ 16) (target : ℤ) :
    ∃ a' left b, ∃ xs : List ℕ, a.drainSecond mem target = .ok (a', left, b) ∧
      Drained mem a a' xs ∧ left = target - xs.length ∧
      (∀ x ∈ xs, fits a.l3.endOid (x / 2 ^ 16 * 2 ^ 16) = true) ∧ a'.upper.l2.valid ∧
      a'.upper.l2.assignedOids = a.upper.l2.assignedOids ∧
      a.upper.l2.listedOids = a'.upper.l2.listedOids + xs ∧
      (0 < left → b = a.upper.l2.fullEnd ∧
        ∀ x ∈ a'.upper.l2.listedOids, ¬ fits a.l3.endOid (x / 2 ^ 16 * 2 ^ 16) = true) := by
  obtain ⟨l2, xs, heq, hinv, hr', hmaps, hassigned, hlisted, -, hacc⟩ :=
    L2.Inv.scan_filtered (fits a.l3.endOid) a.upper.l2.size target 0 (h.upper.l2 hv) (hr hv)
  have hv₂ : l2.valid := hinv.first_pos.ne'
  have hoids := l2Oids_of_listed hv hv₂ hassigned hlisted
  obtain ⟨l3, heq', hd⟩ := h.sink xs (fun _ => hinv) (fun _ => hr') hmaps hoids fun x hx =>
    room_of_fits h.shape.capacity_lt (h.l2_lt hhi x (by
      rw [hoids]
      exact Multiset.mem_add.mpr (.inr hx))) (hacc h.narrow x hx)
  refine ⟨⟨{ a.upper with l2 := l2 }, l3⟩, target - xs.length,
    biggest (a.upper.l2.scanBases (fits a.l3.endOid) a.upper.l2.size target 0), xs, ?_, hd, rfl,
    hacc h.narrow, hv₂, hassigned, hlisted, fun hleft => ⟨?_, fun x hx => ?_⟩⟩
  · rw [drainSecond]
    dsimp only
    rw [heq]
    simp only [readL2, Option.elim_some, bind, Except.bind, heq']
    rfl
  · refine (h.upper.l2 hv).biggest_eq h.narrow (fun x hx => h.l2_lt hhi x ?_) heq hleft
    rw [Allocator.l2Oids, if_pos hv]
    exact Multiset.mem_add.mpr (.inr hx)
  · obtain ⟨j, hj, hbase⟩ := L2.mem_listedOids (l := l2) (fun b => hmaps ▸ h.narrow b) hx
    have hrefused := (h.upper.l2 hv).scan_refused a.upper.l2.size (Nat.zero_le _)
      (Nat.zero_add _).ge (fun i hi => absurd hi i.not_lt_zero) heq hleft j hj
    rw [← hbase, hrefused]
    exact Bool.false_ne_true

/-- The third preference loses the OIDs in the words that L3 gives up. -/
theorem Inv.drainThird_spec (h : Inv a 0) (hv : a.upper.l2.valid) (hr : a.upper.Readable mem)
    (target : ℤ) {k : ℕ} (hk : k < 2 ^ 26) (hroom : ∀ x ∈ a.upper.l2.listedOids, x / 64 < k)
    (hfit : a.l3.Fits k) :
    ∃ a' left, a.drainThird mem target k = .ok (a', left) ∧ Inv a' 0 ∧
      a'.oids + a.l3.above k = a.oids ∧ a'.upper.hiwaterMark = a.upper.hiwaterMark ∧
      (a.l3.Inv → a.l3.above k = 0 → (a.l3.valid → a.l3.scanHand < k) → a'.l3.Inv) := by
  obtain ⟨l3₀, hinit, hshape, hstored, hcap, hl3, -, -, hkeep⟩ :=
    h.shape.init_spec h.stored hk hfit
  have hsplit : a.oids = oids ⟨a.upper, l3₀⟩ + a.l3.above k := by
    rw [oids, oids, hl3, add_assoc]
  have h₀ : Inv ⟨a.upper, l3₀⟩ 0 := by
    refine h.of_le h.upper hshape hstored h.narrow ?_ rfl
    rw [hsplit, add_zero, add_zero]
    exact Multiset.le_add_right _ _
  obtain ⟨l2, xs, heq, hinv, hr', hmaps, hassigned, hlisted, -⟩ :=
    L2.Inv.scan_spec target (h.upper.l2 hv) (hr hv)
  have hoids := l2Oids_of_listed hv hinv.first_pos.ne' hassigned hlisted
  obtain ⟨l3, heq', hd⟩ := h₀.sink xs (fun _ => hinv) (fun _ => hr') hmaps hoids fun x hx => by
    show x / 64 < l3₀.capacity
    rw [hcap]
    refine hroom x ?_
    rw [hlisted]
    exact Multiset.mem_add.mpr (.inr hx)
  refine ⟨⟨{ a.upper with l2 := l2 }, l3⟩, target - xs.length, ?_, hd.inv, ?_, rfl,
    fun hi h0 hhand => hd.keep (hkeep hi h0 hhand)⟩
  · rw [drainThird, hinit]
    simp only [bind, Except.bind]
    rw [heq]
    simp only [readL2, Option.elim_some]
    rw [show l3₀.insertAll xs = .ok l3 from heq']
    rfl
  · rw [hsplit, hd.oids]

/-- What fits and is not in L2 any more has been moved. -/
theorem Drained.filter {a' : AllocatorL3} {xs : List ℕ} (h : Drained mem a a' xs)
    {p : ℕ → Prop} [DecidablePred p] (hp : ∀ x ∈ xs, p x) :
    a.upper.l2Oids.filter p = a'.upper.l2Oids.filter p + xs := by
  have hxs : (xs : Multiset ℕ).filter p = xs := Multiset.filter_eq_self.mpr hp
  rw [h.l2, Multiset.filter_add, hxs]

theorem fullEnd_mod (l : L2) : l.fullEnd % 2 ^ 16 = 0 := by
  rw [L2.fullEnd]
  refine Finset.sup_induction (p := fun m => m % 2 ^ 16 = 0) rfl (fun x hx y hy => ?_)
    fun x _ => by omega
  rcases max_choice x y with hmax | hmax <;> rwa [hmax]

theorem lt_fullEnd {l : L2} {x : ℕ} (hx : x ∈ l.listedOids) : x < l.fullEnd := by
  have hle : x / 2 ^ 16 * 2 ^ 16 + 2 ^ 16 ≤ l.fullEnd :=
    Finset.le_sup (f := fun x => x / 2 ^ 16 * 2 ^ 16 + 2 ^ 16) (Multiset.mem_toFinset.mpr hx)
  omega

theorem Inv.drainL2_spec (h : Inv a 0) {n : ℕ} (hc : CanDrain mem a n) :
    ∃ a' left, a.drainL2 mem n = .ok (a', left) ∧ Inv a' 0 ∧
      a'.upper.hiwaterMark = a.upper.hiwaterMark ∧ (a'.oids = a.oids ↔ KeepsWords a n) ∧
      (a.l3.Inv → KeepsWords a n → KeepsHand a n → a'.l3.Inv) := by
  obtain ⟨a₀, heq₀, h₀, hupper, hoids₀, hend, hkeep₀, hhand₀, hsize₀⟩ := h.createL3_spec
  have hall₀ : a₀.oids = a.oids := by rw [oids, oids, hupper, hoids₀]
  have hhi₀ : a₀.upper.hiwaterMark ≤ 2 ^ 32 - 2 ^ 16 := hupper ▸ hc.hiwater
  obtain ⟨a₁, left₁, xs₁, heq₁, hd₁, hleft₁, hfit₁, hlisted₁, hrest₁⟩ :=
    h₀.drainFirst_spec (hupper ▸ hc.valid) (hupper ▸ hc.readable) hhi₀
  have hmov₁ := hd₁.filter (p := fun x => fits a.endOid (x / 2 ^ 16 * 2 ^ 16) = true)
    fun x hx => hend ▸ hfit₁ x hx
  rw [hupper] at hmov₁ hlisted₁
  change a.movable = _ at hmov₁
  have hhi₁ : a₁.upper.hiwaterMark = a.upper.hiwaterMark := by rw [hd₁.upper, hupper]
  -- a call that does not get to the third preference
  have hdone : ∀ (a' : AllocatorL3) (left : ℤ), ¬ a.ThirdTried n →
      a.drainL2 mem n = .ok (a', left) → Inv a' 0 → a'.upper.hiwaterMark = a.upper.hiwaterMark →
      a'.oids = a.oids → (a₀.l3.Inv → a'.l3.Inv) →
      ∃ a' left, a.drainL2 mem n = .ok (a', left) ∧ Inv a' 0 ∧
        a'.upper.hiwaterMark = a.upper.hiwaterMark ∧ (a'.oids = a.oids ↔ KeepsWords a n) ∧
        (a.l3.Inv → KeepsWords a n → KeepsHand a n → a'.l3.Inv) :=
    fun a' left hnot heq hinv hhi hoids hl3 => ⟨a', left, heq, hinv, hhi,
      iff_of_true hoids fun ht => absurd ht hnot, fun hi _ _ => hl3 (hkeep₀ hi)⟩
  by_cases hl₁ : left₁ ≤ 0
  · refine hdone a₁ 0 (fun ht => ?_) ?_ hd₁.inv hhi₁ (hd₁.oids.trans hall₀) hd₁.keep
    · have := ht.1
      rw [hmov₁, Multiset.card_add, Multiset.coe_card] at this
      omega
    · simp only [drainL2, heq₀, heq₁, bind, Except.bind, if_pos hl₁]
      rfl
  obtain ⟨hv₁, hnone₁⟩ := hrest₁ (not_le.mp hl₁)
  obtain ⟨a₂, left₂, b, xs₂, heq₂, hd₂, hleft₂, hfit₂, hv₂, hassigned₂, hlisted₂, hrest₂⟩ :=
    hd₁.inv.drainSecond_spec hv₁ hd₁.readable (hhi₁.le.trans hc.hiwater) left₁
  have hend₁ : a₁.l3.endOid = a.endOid := by rw [L3.endOid, hd₁.capacity, ← hend, L3.endOid]
  have hmov₂ := hd₂.filter (p := fun x => fits a.endOid (x / 2 ^ 16 * 2 ^ 16) = true)
    fun x hx => hend₁ ▸ hfit₂ x hx
  have hhi₂ : a₂.upper.hiwaterMark = a.upper.hiwaterMark := by rw [hd₂.upper, hhi₁]
  have hoids₂ : a₂.oids = a.oids := (hd₂.oids.trans hd₁.oids).trans hall₀
  by_cases hl₂ : left₂ ≤ 0
  · refine hdone a₂ 0 (fun ht => ?_) ?_ hd₂.inv hhi₂ hoids₂ (hd₂.keep ∘ hd₁.keep)
    · have := ht.1
      rw [hmov₁, hmov₂, Multiset.card_add, Multiset.card_add, Multiset.coe_card,
        Multiset.coe_card] at this
      omega
    · simp only [drainL2, heq₀, heq₁, heq₂, bind, Except.bind, if_neg hl₁, if_pos hl₂]
      rfl
  obtain ⟨hb, hnone₂⟩ := hrest₂ (not_le.mp hl₂)
  have hfull : a₁.upper.l2.fullEnd = a.upper.l2.fullEnd := by
    rw [L2.fullEnd, L2.fullEnd, hlisted₁]
  rw [hfull] at hb
  by_cases hb0 : b = 0
  · refine hdone a₂ left₂ (fun ht => ?_) ?_ hd₂.inv hhi₂ hoids₂ (hd₂.keep ∘ hd₁.keep)
    · obtain ⟨x, hx⟩ := Multiset.exists_mem_of_ne_zero ht.2
      have := lt_fullEnd hx
      omega
    · simp only [drainL2, heq₀, heq₁, heq₂, bind, Except.bind, if_neg hl₁, if_neg hl₂, if_pos hb0]
      rfl
  -- all that fits has been moved
  have hnone :
      a₂.upper.l2Oids.filter (fun x => fits a.endOid (x / 2 ^ 16 * 2 ^ 16) = true) = 0 := by
    rw [Multiset.filter_eq_nil, Allocator.l2Oids, if_pos hv₂, hassigned₂]
    intro x hx
    obtain hx | hx := Multiset.mem_add.mp hx
    · exact hend ▸ hnone₁ x hx
    · exact hend₁ ▸ hnone₂ x hx
  have hmoved : a₂.l3.oids = a.l3.oids + a.movable := by
    rw [hd₂.l3, hd₁.l3, hoids₀, hmov₁, hmov₂, hnone, zero_add, add_assoc,
      add_comm (xs₂ : Multiset ℕ)]
  have ht : a.ThirdTried n := by
    refine ⟨?_, fun hzero => hb0 ?_⟩
    · rw [hmov₁, hmov₂, hnone, zero_add, Multiset.card_add, Multiset.coe_card, Multiset.coe_card]
      omega
    · rw [hb, L2.fullEnd, hzero]
      rfl
  have hmod := fullEnd_mod a.upper.l2
  have hlt : a.upper.l2.fullEnd < 2 ^ 32 := by
    rw [L2.fullEnd, Finset.sup_lt_iff (by norm_num)]
    intro x hx
    have hx : x ∈ a.upper.l2.listedOids := Multiset.mem_toFinset.mp hx
    rw [← hlisted₁] at hx
    have := hd₁.inv.l2_lt (hhi₁.le.trans hc.hiwater) x (by
      rw [Allocator.l2Oids, if_pos hv₁]
      exact Multiset.mem_add.mpr (.inr hx))
    omega
  obtain ⟨a₃, left₃, heq₃, hinv₃, hoids₃, hhi₃, hl3⟩ := hd₂.inv.drainThird_spec hv₂ hd₂.readable
    left₂ (show b / 64 < 2 ^ 26 by omega) (fun x hx => by
      have := lt_fullEnd (l := a.upper.l2) (x := x) (by
        rw [← hlisted₁, hlisted₂]
        exact Multiset.mem_add.mpr (.inl hx))
      omega) (by
      rw [hb, L3.Fits, hd₂.store, hd₁.store]
      exact (hc.store ht).imp id fun hle => hle.trans hsize₀)
  have hwords : KeepsWords a n ↔ a₂.l3.above (b / 64) = 0 := by
    rw [hd₂.inv.shape.above_eq_zero_iff, hmoved, KeepsWords, hb]
    refine ⟨fun hk x hx => ?_, fun hk _ x hx => ?_⟩
    · have := hk ht x hx
      omega
    · have := hk x hx
      omega
  refine ⟨a₃, max left₃ 0, ?_, hinv₃, hhi₃.trans hhi₂, ?_, fun hi hw hh => ?_⟩
  · simp only [drainL2, heq₀, heq₁, heq₂, heq₃, bind, Except.bind, if_neg hl₁, if_neg hl₂,
      if_neg hb0]
    rfl
  · rw [hwords, ← hoids₂, ← hoids₃]
    exact ⟨fun heq => by simpa using heq, fun h0 => by rw [h0, add_zero]⟩
  · refine hl3 (hd₂.keep (hd₁.keep (hkeep₀ hi))) (hwords.mp hw) fun hv => ?_
    have hv₀ : a₀.l3.valid := by
      rw [L3.valid, hd₂.capacity, hd₁.capacity] at hv
      exact hv
    rw [hd₂.hand, hd₁.hand, hhand₀ hv₀, hb]
    split
    next hva => exact hh ht hva
    next => omega

end Drain

end AllocatorL3

end PreemptDB
