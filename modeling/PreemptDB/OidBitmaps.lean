/-
The bitsets of the OID allocator.

Bitmap numbers 1 to 65535 are assigned to a swath, listed as full, or unused;
the three lists are kept in two arrays.  `L2.Inv` says that they make up all
numbers, so that no bitset is used twice, and what the bitsets hold.

* `L2.oids` — the OIDs in L2, with multiplicities;
* `L2.Inv` — the bookkeeping of the bitmap numbers;
* `insertOid_spec`, `scan_spec`, `scavenge_spec` — what goes in and out.
-/
import PreemptDB.OidAlloc

namespace PreemptDB

open Function Segment

namespace L2

/-- The OIDs in the bitset assigned to a swath. -/
def swathOids (l : L2) (s : ℕ) : Multiset ℕ :=
  if l.assignments s = 0 then 0
  else ((l.maps (l.assignments s)).values : Multiset ℕ).map (s * 2 ^ 16 + ·)

/-- The OIDs in the full bitset at place `j` of the list. -/
def fullOids (l : L2) (j : ℕ) : Multiset ℕ :=
  ((l.maps (l.slots j % 2 ^ 16)).values : Multiset ℕ).map (l.slots j / 2 ^ 16 * 2 ^ 16 + ·)

/-- The OIDs in assigned bitsets. -/
def assignedOids (l : L2) : Multiset ℕ := ∑ s ∈ Finset.range L2_CAPACITY, l.swathOids s

/-- The OIDs in full bitsets. -/
def listedOids (l : L2) : Multiset ℕ := ∑ j ∈ Finset.range l.size, l.fullOids j

/-- The number of the bitmap of a swath. -/
def swathNumber (l : L2) (s : ℕ) : Multiset ℕ :=
  if l.assignments s = 0 then 0 else {l.assignments s}

/-- The numbers of the assigned, full and unused bitmaps. -/
def numbers (l : L2) : Multiset ℕ :=
  ∑ s ∈ Finset.range L2_CAPACITY, l.swathNumber s + seg (l.slots · % 2 ^ 16) 0 l.size +
    seg (l.slots · % 2 ^ 16) l.firstUnused (L2_CAPACITY - l.firstUnused)

structure Inv (l : L2) : Prop where
  first_pos : 0 < l.firstUnused
  first_le : l.firstUnused ≤ L2_CAPACITY
  numbers : l.numbers = (Multiset.range (L2_CAPACITY - 1)).map (· + 1)
  assigned : ∀ s < L2_CAPACITY, l.assignments s ≠ 0 →
    (l.maps (l.assignments s)).Ok ∧ (l.maps (l.assignments s)).values.length < 16
  full : ∀ j < l.size,
    (l.maps (l.slots j % 2 ^ 16)).Ok ∧ (l.maps (l.slots j % 2 ^ 16)).values.length = 16
  loose : l.looseOids = l.assignedOids.card

variable {l l' : L2}

section Numbers

theorem Inv.nodup (h : Inv l) : l.numbers.Nodup := by
  rw [h.numbers]
  exact (Multiset.nodup_range _).map (add_left_injective 1)

theorem Inv.number_bounds (h : Inv l) {b : ℕ} (hb : b ∈ l.numbers) : 0 < b ∧ b < 2 ^ 16 := by
  rw [h.numbers, Multiset.mem_map] at hb
  obtain ⟨i, hi, rfl⟩ := hb
  rw [Multiset.mem_range, L2_CAPACITY] at hi
  omega

/-- The full list does not reach the unused one. -/
theorem Inv.size_lt (h : Inv l) :
    l.size + (∑ s ∈ Finset.range L2_CAPACITY, l.swathNumber s).card < l.firstUnused := by
  have hcard := congrArg Multiset.card h.numbers
  have hpos := h.first_pos
  have hle := h.first_le
  rw [L2.numbers, Multiset.card_add, Multiset.card_add, card_seg, card_seg, Multiset.card_map,
    Multiset.card_range] at hcard
  omega

theorem swathNumber_le (l : L2) {s : ℕ} (hs : s < L2_CAPACITY) :
    l.swathNumber s ≤ ∑ s ∈ Finset.range L2_CAPACITY, l.swathNumber s :=
  Finset.single_le_sum (fun _ _ => Multiset.zero_le _) (Finset.mem_range.mpr hs)

theorem mem_swathNumber {s : ℕ} (ha : l.assignments s ≠ 0) :
    l.assignments s ∈ l.swathNumber s := by
  rw [swathNumber, if_neg ha]
  exact Multiset.mem_singleton_self _

theorem assigned_mem {s : ℕ} (hs : s < L2_CAPACITY) (ha : l.assignments s ≠ 0) :
    l.assignments s ∈ ∑ s ∈ Finset.range L2_CAPACITY, l.swathNumber s :=
  Multiset.mem_of_le (l.swathNumber_le hs) (mem_swathNumber ha)

theorem listed_mem {j : ℕ} (hj : j < l.size) :
    l.slots j % 2 ^ 16 ∈ seg (l.slots · % 2 ^ 16) 0 l.size :=
  mem_seg.mpr ⟨j, hj, by rw [Nat.zero_add]⟩

theorem unused_mem {u : ℕ} (hu : l.firstUnused ≤ u) (hlt : u < L2_CAPACITY) :
    l.slots u % 2 ^ 16 ∈
      seg (l.slots · % 2 ^ 16) l.firstUnused (L2_CAPACITY - l.firstUnused) :=
  mem_seg.mpr ⟨u - l.firstUnused, by omega, by rw [Nat.add_sub_cancel' hu]⟩

/-- A bitmap is assigned to one swath. -/
theorem Inv.assigned_inj (h : Inv l) {s s' : ℕ} (hs : s < L2_CAPACITY) (hs' : s' < L2_CAPACITY)
    (ha : l.assignments s ≠ 0) (heq : l.assignments s = l.assignments s') : s = s' := by
  by_contra hne
  have hnodup := (Multiset.nodup_add.mp (Multiset.nodup_add.mp h.nodup).1).1
  rw [← Finset.add_sum_erase _ _ (Finset.mem_range.mpr hs)] at hnodup
  have hdisj := (Multiset.nodup_add.mp hnodup).2.2
  have hle : l.swathNumber s' ≤ ∑ s ∈ (Finset.range L2_CAPACITY).erase s, l.swathNumber s :=
    Finset.single_le_sum (fun _ _ => Multiset.zero_le _)
      (Finset.mem_erase.mpr ⟨Ne.symm hne, Finset.mem_range.mpr hs'⟩)
  refine Multiset.disjoint_left.mp hdisj (mem_swathNumber ha) (Multiset.mem_of_le hle ?_)
  rw [heq]
  exact mem_swathNumber (heq ▸ ha)

theorem Inv.assigned_ne_listed (h : Inv l) {s j : ℕ} (hs : s < L2_CAPACITY)
    (ha : l.assignments s ≠ 0) (hj : j < l.size) : l.slots j % 2 ^ 16 ≠ l.assignments s := by
  intro heq
  have hdisj := (Multiset.nodup_add.mp (Multiset.nodup_add.mp h.nodup).1).2.2
  exact Multiset.disjoint_left.mp hdisj (assigned_mem hs ha) (heq ▸ listed_mem hj)

/-- An unused bitmap is neither assigned nor full. -/
theorem Inv.unused_ne (h : Inv l) {u : ℕ} (hu : l.firstUnused ≤ u) (hlt : u < L2_CAPACITY) :
    (∀ s < L2_CAPACITY, l.assignments s ≠ 0 → l.assignments s ≠ l.slots u % 2 ^ 16) ∧
      ∀ j < l.size, l.slots j % 2 ^ 16 ≠ l.slots u % 2 ^ 16 := by
  have hdisj := (Multiset.nodup_add.mp h.nodup).2.2
  refine ⟨fun s hs ha heq => ?_, fun j hj heq => ?_⟩
  · exact Multiset.disjoint_left.mp hdisj (Multiset.mem_add.mpr (.inl (assigned_mem hs ha)))
      (heq ▸ unused_mem hu hlt)
  · exact Multiset.disjoint_left.mp hdisj (Multiset.mem_add.mpr (.inr (listed_mem hj)))
      (heq ▸ unused_mem hu hlt)

theorem Inv.assigned_bounds (h : Inv l) {s : ℕ} (hs : s < L2_CAPACITY)
    (ha : l.assignments s ≠ 0) : l.assignments s < 2 ^ 16 :=
  (h.number_bounds (Multiset.mem_add.mpr (.inl (Multiset.mem_add.mpr
    (.inl (assigned_mem hs ha)))))).2

theorem Inv.unused_bounds (h : Inv l) {u : ℕ} (hu : l.firstUnused ≤ u) (hlt : u < L2_CAPACITY) :
    0 < l.slots u % 2 ^ 16 :=
  (h.number_bounds (Multiset.mem_add.mpr (.inr (unused_mem hu hlt)))).1

end Numbers

theorem card_swathOids (l : L2) (s : ℕ) : (l.swathOids s).card =
    if l.assignments s = 0 then 0 else (l.maps (l.assignments s)).values.length := by
  rw [swathOids]
  split
  · rfl
  · rw [Multiset.card_map, Multiset.coe_card]

theorem Inv.loose_lt (h : Inv l) : l.looseOids < 2 ^ 20 := by
  have hcard : l.assignedOids.card = ∑ s ∈ Finset.range L2_CAPACITY, (l.swathOids s).card :=
    map_sum Multiset.cardHom _ _
  rw [h.loose, hcard]
  calc ∑ s ∈ Finset.range L2_CAPACITY, (l.swathOids s).card
      ≤ ∑ _s ∈ Finset.range L2_CAPACITY, 15 := Finset.sum_le_sum fun s hs => by
        rw [card_swathOids]
        split
        · omega
        · next ha => exact Nat.le_of_lt_succ (h.assigned s (Finset.mem_range.mp hs) ha).2
    _ < 2 ^ 20 := by
      rw [Finset.sum_const, Finset.card_range, L2_CAPACITY]
      norm_num

theorem Inv.card_listedOids (h : Inv l) : l.listedOids.card = 16 * l.size := by
  rw [listedOids, Multiset.card_sum, Finset.sum_congr rfl fun j hj => ?_, Finset.sum_const,
    Finset.card_range, smul_eq_mul, Nat.mul_comm]
  rw [fullOids, Multiset.card_map, Multiset.coe_card]
  exact (h.full j (Finset.mem_range.mp hj)).2

theorem oids_init (l : L2) : l.init.assignedOids = 0 ∧ l.init.listedOids = 0 :=
  ⟨Finset.sum_eq_zero fun _ _ => if_pos rfl, rfl⟩

theorem inv_init (l : L2) : Inv l.init := by
  have hcap : L2_CAPACITY = 2 ^ 16 := by rw [L2_CAPACITY]
  have hnone : ∑ s ∈ Finset.range L2_CAPACITY, l.init.swathNumber s = 0 :=
    Finset.sum_eq_zero fun _ _ => if_pos rfl
  refine ⟨Nat.one_pos, ?_, ?_, fun s _ h => absurd rfl h, fun j hj => absurd hj (Nat.not_lt_zero j),
    ?_⟩
  · rw [hcap]
    exact Nat.one_le_two_pow
  · rw [L2.numbers, hnone, zero_add]
    change seg _ 0 0 + seg _ 1 (L2_CAPACITY - 1) = _
    rw [seg_zero, zero_add, seg]
    refine Multiset.map_congr rfl fun i hi => ?_
    rw [Multiset.mem_range, hcap] at hi
    change (1 + i) % 2 ^ 16 = i + 1
    omega
  · rw [l.oids_init.1]
    rfl

section Insert

theorem swathOids_congr {s : ℕ} (ha : l'.assignments s = l.assignments s)
    (hm : l.assignments s ≠ 0 → l'.maps (l.assignments s) = l.maps (l.assignments s)) :
    l'.swathOids s = l.swathOids s := by
  rw [swathOids, swathOids, ha]
  split
  · rfl
  · next hne => rw [hm hne]

theorem fullOids_congr {j : ℕ} (hs : l'.slots j = l.slots j)
    (hm : l'.maps (l.slots j % 2 ^ 16) = l.maps (l.slots j % 2 ^ 16)) :
    l'.fullOids j = l.fullOids j := by
  rw [fullOids, fullOids, hs, hm]

/-- The swath of an OID, and its place there. -/
theorem oid_split (x : ℕ) : x / 2 ^ 16 * 2 ^ 16 + x % 2 ^ 16 = x := Nat.div_add_mod' x (2 ^ 16)

/-- An OID is added to the bitset of its swath. -/
theorem Inv.insert_map (h : Inv l) {x : ℕ} (hs : x / 2 ^ 16 < L2_CAPACITY)
    (ha : l.assignments (x / 2 ^ 16) ≠ 0) (hx : x ∉ l.assignedOids) :
    ((l.maps (l.assignments (x / 2 ^ 16))).insert (x % 2 ^ 16)).1.Ok ∧
      (((l.maps (l.assignments (x / 2 ^ 16))).insert (x % 2 ^ 16)).1.values : Multiset ℕ).map
        (x / 2 ^ 16 * 2 ^ 16 + ·) = x ::ₘ l.swathOids (x / 2 ^ 16) ∧
      ((l.maps (l.assignments (x / 2 ^ 16))).insert (x % 2 ^ 16)).2 =
        if (l.swathOids (x / 2 ^ 16)).card = 15 then 1 else 0 := by
  obtain ⟨hok, hlen⟩ := h.assigned _ hs ha
  have hmem : x % 2 ^ 16 ∉ (l.maps (l.assignments (x / 2 ^ 16))).values := by
    intro hmem
    refine hx (Multiset.mem_of_le (Finset.single_le_sum (fun _ _ => Multiset.zero_le _)
      (Finset.mem_range.mpr hs)) ?_)
    rw [swathOids, if_neg ha, Multiset.mem_map]
    exact ⟨_, hmem, oid_split x⟩
  obtain ⟨hok', hperm, hret⟩ := hok.insert hlen hmem
  refine ⟨hok', ?_, ?_⟩
  · rw [Multiset.coe_eq_coe.mpr hperm, ← Multiset.cons_coe, Multiset.map_cons, oid_split,
      swathOids, if_neg ha]
  · rw [hret, card_swathOids, if_neg ha]

/-- The OID goes to a bitset that does not become full. -/
theorem Inv.insert_loose (h : Inv l) {x : ℕ} (hs : x / 2 ^ 16 < L2_CAPACITY)
    (ha : l.assignments (x / 2 ^ 16) ≠ 0) {m : SparseBitset} (hok : m.Ok)
    (hlt : m.values.length < 16)
    (hm : (m.values : Multiset ℕ).map (x / 2 ^ 16 * 2 ^ 16 + ·) = x ::ₘ l.swathOids (x / 2 ^ 16)) :
    let l' := { l with
      maps := Function.update l.maps (l.assignments (x / 2 ^ 16)) m
      looseOids := l.looseOids + 1 }
    Inv l' ∧ l'.assignedOids = x ::ₘ l.assignedOids ∧ l'.listedOids = l.listedOids := by
  intro l'
  have hother : ∀ s < L2_CAPACITY, s ≠ x / 2 ^ 16 → l'.swathOids s = l.swathOids s :=
    fun s hlt hne => swathOids_congr rfl fun hne0 =>
      update_of_ne (fun heq => hne (h.assigned_inj hlt hs hne0 heq)) _ _
  have hlisted : ∀ j < l.size, l'.maps (l.slots j % 2 ^ 16) = l.maps (l.slots j % 2 ^ 16) :=
    fun j hj => update_of_ne (h.assigned_ne_listed hs ha hj) _ _
  have hself : l'.swathOids (x / 2 ^ 16) = x ::ₘ l.swathOids (x / 2 ^ 16) := by
    rw [swathOids, if_neg ha]
    change ((Function.update l.maps (l.assignments (x / 2 ^ 16)) m
      (l.assignments (x / 2 ^ 16))).values : Multiset ℕ).map _ = _
    rw [update_self, hm]
  have hsum : l'.assignedOids = x ::ₘ l.assignedOids := by
    have hswap := sum_swap (Finset.mem_range.mpr hs) fun s hmem hne =>
      hother s (Finset.mem_range.mp hmem) hne
    rw [hself, ← Multiset.singleton_add, ← add_assoc] at hswap
    rw [assignedOids, add_right_cancel hswap, add_comm, Multiset.singleton_add]
    rfl
  refine ⟨⟨h.first_pos, h.first_le, h.numbers, fun s hlt' ha' => ?_, fun j hj => ?_, ?_⟩, hsum, ?_⟩
  · change (Function.update l.maps _ m (l.assignments s)).Ok ∧
      (Function.update l.maps _ m (l.assignments s)).values.length < 16
    by_cases heq : l.assignments s = l.assignments (x / 2 ^ 16)
    · rw [heq, update_self]
      exact ⟨hok, hlt⟩
    · rw [update_of_ne heq]
      exact h.assigned s hlt' ha'
  · rw [hlisted j hj]
    exact h.full j hj
  · rw [hsum, Multiset.card_cons, ← h.loose]
  · exact Finset.sum_congr rfl fun j hj => fullOids_congr rfl (hlisted j (Finset.mem_range.mp hj))

theorem mod_update (slots : ℕ → ℕ) (j v : ℕ) :
    (Function.update slots j v · % 2 ^ 16) =
      Function.update (slots · % 2 ^ 16) j (v % 2 ^ 16) :=
  comp_update (· % 2 ^ 16) slots j v

/-- Another assignment of a swath. -/
theorem sum_swathNumber (l l' : L2) {s b : ℕ} (hs : s < L2_CAPACITY)
    (h' : l'.assignments = Function.update l.assignments s b) :
    ∑ s ∈ Finset.range L2_CAPACITY, l'.swathNumber s + l.swathNumber s =
      ∑ s ∈ Finset.range L2_CAPACITY, l.swathNumber s + if b = 0 then 0 else {b} := by
  rw [sum_swap (f := l.swathNumber) (Finset.mem_range.mpr hs) fun i _ hne => by
    rw [swathNumber, swathNumber, h', update_of_ne hne]]
  congr 1
  rw [swathNumber, h', update_self]

theorem sum_swathOids (l l' : L2) {s : ℕ} (hs : s < L2_CAPACITY)
    (h' : ∀ i < L2_CAPACITY, i ≠ s → l'.swathOids i = l.swathOids i) :
    l'.assignedOids + l.swathOids s = l.assignedOids + l'.swathOids s :=
  sum_swap (Finset.mem_range.mpr hs) fun i hi hne => h' i (Finset.mem_range.mp hi) hne

/-- The bitset of the OID becomes full. -/
theorem Inv.insert_full (h : Inv l) {x : ℕ} (hs : x / 2 ^ 16 < L2_CAPACITY)
    (ha : l.assignments (x / 2 ^ 16) ≠ 0) {m : SparseBitset} (hok : m.Ok)
    (hlen : m.values.length = 16)
    (hm : (m.values : Multiset ℕ).map (x / 2 ^ 16 * 2 ^ 16 + ·) = x ::ₘ l.swathOids (x / 2 ^ 16)) :
    let l' := { l with
      maps := Function.update l.maps (l.assignments (x / 2 ^ 16)) m
      slots := Function.update l.slots l.size (x / 2 ^ 16 * 2 ^ 16 + l.assignments (x / 2 ^ 16))
      size := l.size + 1
      assignments := Function.update l.assignments (x / 2 ^ 16) 0
      looseOids := usub 32 (l.looseOids + 1) SparseBitset.CAPACITY }
    Inv l' ∧ l'.assignedOids + l'.listedOids = x ::ₘ (l.assignedOids + l.listedOids) := by
  intro l'
  set b := l.assignments (x / 2 ^ 16) with hb
  have hblt := h.assigned_bounds hs ha
  have hsize := h.size_lt
  have hmod : (x / 2 ^ 16 * 2 ^ 16 + b) % 2 ^ 16 = b := by omega
  have hdiv : (x / 2 ^ 16 * 2 ^ 16 + b) / 2 ^ 16 = x / 2 ^ 16 := by omega
  have hlisted : ∀ j < l.size, l'.slots j = l.slots j ∧
      l'.maps (l.slots j % 2 ^ 16) = l.maps (l.slots j % 2 ^ 16) := fun j hj =>
    ⟨update_of_ne (by omega) _ _,
      update_of_ne (h.assigned_ne_listed hs ha hj) _ _⟩
  have hslot : l'.slots l.size = x / 2 ^ 16 * 2 ^ 16 + b := update_self _ _ _
  have hmap : l'.maps b = m := update_self _ _ _
  have hnum := sum_swathNumber l l' hs rfl
  rw [if_pos rfl, add_zero, swathNumber, if_neg ha] at hnum
  -- the other swaths keep their bitsets: no two share one
  have hother : ∀ s < L2_CAPACITY, s ≠ x / 2 ^ 16 →
      l'.assignments s = l.assignments s ∧ (l.assignments s ≠ 0 →
        l'.maps (l.assignments s) = l.maps (l.assignments s)) := fun s hlt hne =>
    ⟨update_of_ne hne _ _, fun hne0 =>
      update_of_ne (fun heq => hne (h.assigned_inj hlt hs hne0 heq)) _ _⟩
  have hsum := sum_swathOids l l' hs fun s hlt hne =>
    swathOids_congr (hother s hlt hne).1 (hother s hlt hne).2
  rw [show l'.swathOids (x / 2 ^ 16) = 0 from if_pos (update_self _ _ _),
    add_zero] at hsum
  -- the bitset moves from the assignments to the end of the list
  have hfull : l'.fullOids l.size = x ::ₘ l.swathOids (x / 2 ^ 16) := by
    rw [fullOids, hslot, hmod, hdiv, hmap, hm]
  have hrest : ∑ j ∈ Finset.range l.size, l'.fullOids j = l.listedOids :=
    Finset.sum_congr rfl fun j hj =>
      fullOids_congr (hlisted j (Finset.mem_range.mp hj)).1 (hlisted j (Finset.mem_range.mp hj)).2
  have hlisted' : l'.listedOids = l.listedOids + x ::ₘ l.swathOids (x / 2 ^ 16) := by
    rw [listedOids]
    change ∑ j ∈ Finset.range (l.size + 1), l'.fullOids j = _
    rw [Finset.sum_range_succ, hrest, hfull]
  refine ⟨⟨h.first_pos, h.first_le, ?_, fun s hlt ha' => ?_, fun j hj => ?_, ?_⟩, ?_⟩
  · rw [← h.numbers, L2.numbers, L2.numbers, ← hnum]
    change _ + seg (Function.update l.slots l.size _ · % 2 ^ 16) 0 (l.size + 1) +
      seg (Function.update l.slots l.size _ · % 2 ^ 16) l.firstUnused _ = _
    have hsnoc := seg_update_snoc (l.slots · % 2 ^ 16) 0 l.size b
    rw [Nat.zero_add] at hsnoc
    rw [mod_update, hmod, hsnoc, seg_update_of_lt (.inl (by omega)), ← Multiset.singleton_add,
      add_assoc _ _ (seg _ 0 l.size)]
  · have hne : s ≠ x / 2 ^ 16 := fun heq => ha' (heq ▸ update_self _ _ _)
    obtain ⟨has, hms⟩ := hother s hlt hne
    rw [has] at ha' ⊢
    rw [hms ha']
    exact h.assigned s hlt ha'
  · rcases Nat.lt_succ_iff_lt_or_eq.mp hj with hj | rfl
    · rw [(hlisted j hj).1, (hlisted j hj).2]
      exact h.full j hj
    · rw [hslot, hmod, hmap]
      exact ⟨hok, hlen⟩
  · have hcard := congrArg Multiset.card hsum
    have hcard' := congrArg Multiset.card hm
    have hlt := h.loose_lt
    rw [Multiset.card_add, ← h.loose] at hcard
    rw [Multiset.card_map, Multiset.coe_card, Multiset.card_cons] at hcard'
    change usub 32 (l.looseOids + 1) SparseBitset.CAPACITY = _
    rw [usub, SparseBitset.CAPACITY]
    omega
  · rw [hlisted', ← hsum, Multiset.add_cons, Multiset.add_cons]
    congr 1
    abel

/-- An unused bitmap is assigned to the swath of the OID. -/
theorem Inv.insert_new (h : Inv l) {x : ℕ} (hs : x / 2 ^ 16 < L2_CAPACITY)
    (ha : l.assignments (x / 2 ^ 16) = 0) (hfirst : l.firstUnused < L2_CAPACITY) :
    let l' := { l with
      assignments := Function.update l.assignments (x / 2 ^ 16) (l.slots l.firstUnused % 2 ^ 16)
      firstUnused := l.firstUnused + 1
      maps := Function.update l.maps (l.slots l.firstUnused % 2 ^ 16) (.init1 (x % 2 ^ 16))
      looseOids := l.looseOids + 1 }
    Inv l' ∧ l'.assignedOids = x ::ₘ l.assignedOids ∧ l'.listedOids = l.listedOids := by
  intro l'
  set b := l.slots l.firstUnused % 2 ^ 16 with hb
  have hb0 : b ≠ 0 := (h.unused_bounds le_rfl hfirst).ne'
  obtain ⟨hassigned, hfull⟩ := h.unused_ne le_rfl hfirst
  have hself : l'.assignments (x / 2 ^ 16) = b := update_self _ _ _
  have hmap : l'.maps b = .init1 (x % 2 ^ 16) := update_self _ _ _
  have hlisted : ∀ j < l.size, l'.maps (l.slots j % 2 ^ 16) = l.maps (l.slots j % 2 ^ 16) :=
    fun j hj => update_of_ne (hfull j hj) _ _
  have hother : ∀ s < L2_CAPACITY, s ≠ x / 2 ^ 16 →
      l'.assignments s = l.assignments s ∧ (l.assignments s ≠ 0 →
        l'.maps (l.assignments s) = l.maps (l.assignments s)) := fun s hlt hne =>
    ⟨update_of_ne hne _ _, fun hne0 =>
      update_of_ne (hassigned s hlt hne0) _ _⟩
  have hnum := sum_swathNumber l l' hs rfl
  rw [if_neg hb0, swathNumber, if_pos ha, add_zero] at hnum
  have hsum := sum_swathOids l l' hs fun s hlt hne =>
    swathOids_congr (hother s hlt hne).1 (hother s hlt hne).2
  rw [show l.swathOids (x / 2 ^ 16) = 0 from if_pos ha, add_zero, swathOids, hself, if_neg hb0,
    hmap, SparseBitset.values_init1, Multiset.coe_singleton, Multiset.map_singleton, oid_split,
    add_comm, Multiset.singleton_add] at hsum
  refine ⟨⟨Nat.succ_pos _, hfirst, ?_, fun s hlt ha' => ?_, fun j hj => ?_, ?_⟩, hsum, ?_⟩
  · rw [← h.numbers, L2.numbers, L2.numbers, hnum]
    change _ + seg (l.slots · % 2 ^ 16) 0 l.size +
      seg (l.slots · % 2 ^ 16) (l.firstUnused + 1) (L2_CAPACITY - (l.firstUnused + 1)) = _
    rw [show L2_CAPACITY - l.firstUnused = L2_CAPACITY - (l.firstUnused + 1) + 1 by omega,
      seg_cons, ← Multiset.singleton_add]
    abel
  · by_cases hne : s = x / 2 ^ 16
    · rw [hne, hself, hmap, SparseBitset.values_init1]
      exact ⟨SparseBitset.ok_init1 _, by rw [List.length_singleton]; norm_num⟩
    · obtain ⟨has, hms⟩ := hother s hlt hne
      rw [has] at ha' ⊢
      rw [hms ha']
      exact h.assigned s hlt ha'
  · rw [hlisted j hj]
    exact h.full j hj
  · rw [hsum, Multiset.card_cons, ← h.loose]
  · exact Finset.sum_congr rfl fun j hj => fullOids_congr rfl (hlisted j (Finset.mem_range.mp hj))

/-- The OID is in L2 now, or there is no bitmap for it. -/
theorem Inv.insertOid_spec (h : Inv l) {x : ℕ} (hx : x < 2 ^ 32) (hmem : x ∉ l.assignedOids)
    (hl : l.insertOid x = some l') :
    Inv l' ∧ l'.assignedOids + l'.listedOids = x ::ₘ (l.assignedOids + l.listedOids) := by
  have hs : x / 2 ^ 16 < L2_CAPACITY := by
    rw [L2_CAPACITY]
    omega
  rw [insertOid] at hl
  by_cases ha : l.assignments (x / 2 ^ 16) = 0
  · rw [if_neg (not_not.mpr ha)] at hl
    by_cases hfirst : l.firstUnused = L2_CAPACITY
    · rw [if_pos hfirst] at hl
      cases hl
    · rw [if_neg hfirst] at hl
      cases hl
      obtain ⟨hinv, hassigned, hlisted⟩ := h.insert_new hs ha (lt_of_le_of_ne h.first_le hfirst)
      refine ⟨hinv, ?_⟩
      rw [hassigned, hlisted, Multiset.cons_add]
  · rw [if_pos ha] at hl
    obtain ⟨hok, hvalues, hret⟩ := h.insert_map hs ha hmem
    have hcard := congrArg Multiset.card hvalues
    have hlt := (h.assigned _ hs ha).2
    rw [Multiset.card_map, Multiset.coe_card, Multiset.card_cons, card_swathOids, if_neg ha]
      at hcard
    rw [card_swathOids, if_neg ha] at hret
    obtain ⟨m, rval⟩ := (l.maps (l.assignments (x / 2 ^ 16))).insert (x % 2 ^ 16)
    dsimp only at hok hvalues hret hcard hl
    by_cases hlen : (l.maps (l.assignments (x / 2 ^ 16))).values.length = 15
    · rw [if_pos hlen] at hret
      rw [if_pos (by rw [hret]; norm_num)] at hl
      cases hl
      exact h.insert_full hs ha hok (by omega) hvalues
    · rw [if_neg hlen] at hret
      rw [if_neg (by rw [hret]; norm_num)] at hl
      cases hl
      obtain ⟨hinv, hassigned, hlisted⟩ := h.insert_loose hs ha hok (by omega) hvalues
      refine ⟨hinv, ?_⟩
      rw [hassigned, hlisted, Multiset.cons_add]

/-- How many OIDs the bitset of a swath can still take. -/
def room (l : L2) (s : ℕ) : ℕ :=
  if l.assignments s = 0 then 0 else 16 - (l.maps (l.assignments s)).values.length

theorem room_congr {s : ℕ} (ha : l'.assignments s = l.assignments s)
    (hm : l.assignments s ≠ 0 → l'.maps (l.assignments s) = l.maps (l.assignments s)) :
    l'.room s = l.room s := by
  rw [room, room, ha]
  split
  · rfl
  · next hne => rw [hm hne]

/-- An OID takes a place in the bitset of its swath, or an unused bitmap. -/
theorem Inv.insertOid_room (h : Inv l) {x : ℕ} (hs : x / 2 ^ 16 < L2_CAPACITY)
    (hmem : x ∉ l.assignedOids) (hl : l.insertOid x = some l') :
    (∀ s < L2_CAPACITY, s ≠ x / 2 ^ 16 → l'.room s = l.room s) ∧
      (l'.room (x / 2 ^ 16) + 1 = l.room (x / 2 ^ 16) ∧ l'.firstUnused = l.firstUnused ∨
        l.room (x / 2 ^ 16) = 0 ∧ l'.firstUnused = l.firstUnused + 1 ∧
          l.firstUnused < L2_CAPACITY) := by
  rw [insertOid] at hl
  by_cases ha : l.assignments (x / 2 ^ 16) = 0
  · rw [if_neg (not_not.mpr ha)] at hl
    by_cases hfirst : l.firstUnused = L2_CAPACITY
    · rw [if_pos hfirst] at hl
      cases hl
    rw [if_neg hfirst] at hl
    cases hl
    have hlt := lt_of_le_of_ne h.first_le hfirst
    refine ⟨fun s hlt' hne => room_congr (update_of_ne hne _ _) fun hne0 => ?_,
      .inr ⟨if_pos ha, rfl, hlt⟩⟩
    exact update_of_ne ((h.unused_ne le_rfl hlt).1 s hlt' hne0) _ _
  · rw [if_pos ha] at hl
    obtain ⟨-, hvalues, hret⟩ := h.insert_map hs ha hmem
    have hcard := congrArg Multiset.card hvalues
    have hlen := (h.assigned _ hs ha).2
    rw [Multiset.card_map, Multiset.coe_card, Multiset.card_cons, card_swathOids, if_neg ha]
      at hcard
    rw [card_swathOids, if_neg ha] at hret
    have hother : ∀ s < L2_CAPACITY, s ≠ x / 2 ^ 16 → l.assignments s ≠ 0 → ∀ m,
        Function.update l.maps (l.assignments (x / 2 ^ 16)) m (l.assignments s) =
          l.maps (l.assignments s) := fun s hlt hne hne0 m =>
      update_of_ne (fun heq => hne (h.assigned_inj hlt hs hne0 heq)) _ _
    generalize (l.maps (l.assignments (x / 2 ^ 16))).insert (x % 2 ^ 16) = r at hcard hret hl
    obtain ⟨m, rval⟩ := r
    dsimp only at hcard hret hl
    by_cases hfull : rval ≠ 0
    · rw [if_pos hfull] at hl
      cases hl
      refine ⟨fun s hlt hne => room_congr (update_of_ne hne _ _)
        (hother s hlt hne · m), .inl ⟨?_, rfl⟩⟩
      have h15 : (l.maps (l.assignments (x / 2 ^ 16))).values.length = 15 := by
        by_contra hne
        exact hfull (hret.trans (if_neg hne))
      rw [room, room, if_neg ha, h15]
      exact congrArg (· + 1) (if_pos (update_self _ _ _))
    · rw [if_neg hfull] at hl
      cases hl
      refine ⟨fun s hlt hne => room_congr rfl (hother s hlt hne · m), .inl ⟨?_, rfl⟩⟩
      have h15 : (l.maps (l.assignments (x / 2 ^ 16))).values.length ≠ 15 := by
        intro h15
        rw [if_pos h15] at hret
        exact hfull (by omega)
      have hself : Function.update l.maps (l.assignments (x / 2 ^ 16)) m
          (l.assignments (x / 2 ^ 16)) = m := update_self _ _ _
      rw [room, room, if_neg ha]
      dsimp only
      rw [if_neg ha, hself]
      omega

/-- How many of these OIDs fit in the bitsets that their swaths have. -/
def places (l : L2) (xs : Multiset ℕ) : ℕ :=
  ∑ s ∈ Finset.range L2_CAPACITY, min (xs.countP (· / 2 ^ 16 = s)) (l.room s)

theorem places_le_card (l : L2) (xs : Multiset ℕ) : l.places xs ≤ xs.card := by
  induction xs using Multiset.induction with
  | empty => simp [places]
  | cons x xs ih =>
    have hstep : ∀ s ∈ Finset.range L2_CAPACITY,
        min ((x ::ₘ xs).countP (· / 2 ^ 16 = s)) (l.room s) ≤
          min (xs.countP (· / 2 ^ 16 = s)) (l.room s) + if s = x / 2 ^ 16 then 1 else 0 := by
      intro s _
      rw [Multiset.countP_cons]
      by_cases hs : s = x / 2 ^ 16
      · rw [if_pos hs, if_pos hs.symm]
        omega
      · rw [if_neg hs, if_neg (Ne.symm hs)]
        omega
    have hsum := Finset.sum_le_sum hstep
    rw [Finset.sum_add_distrib, Finset.sum_ite_eq'] at hsum
    rw [Multiset.card_cons]
    refine hsum.trans (Nat.add_le_add ih ?_)
    split <;> omega

/-- The OID of a swath whose bitset has a place less afterwards. -/
theorem places_cons_of_room {x : ℕ} {xs : Multiset ℕ} (hs : x / 2 ^ 16 < L2_CAPACITY)
    (hother : ∀ s < L2_CAPACITY, s ≠ x / 2 ^ 16 → l'.room s = l.room s)
    (hself : l'.room (x / 2 ^ 16) + 1 = l.room (x / 2 ^ 16)) :
    l.places (x ::ₘ xs) = l'.places xs + 1 := by
  have hmem := Finset.mem_range.mpr hs
  rw [places, places, ← Finset.add_sum_erase _ _ hmem, ← Finset.add_sum_erase _ _ hmem, ← hself,
    Multiset.countP_cons, if_pos rfl]
  have hrest : ∑ s ∈ (Finset.range L2_CAPACITY).erase (x / 2 ^ 16),
        min ((x ::ₘ xs).countP (· / 2 ^ 16 = s)) (l.room s) =
      ∑ s ∈ (Finset.range L2_CAPACITY).erase (x / 2 ^ 16),
        min (xs.countP (· / 2 ^ 16 = s)) (l'.room s) := by
    refine Finset.sum_congr rfl fun s hmem => ?_
    obtain ⟨hne, hlt⟩ := Finset.mem_erase.mp hmem
    rw [Multiset.countP_cons, if_neg (Ne.symm hne), hother s (Finset.mem_range.mp hlt) hne]
    rfl
  rw [hrest]
  omega

/-- The OID of a swath whose bitset has no place. -/
theorem places_cons_of_full {x : ℕ} {xs : Multiset ℕ} (h0 : l.room (x / 2 ^ 16) = 0) :
    l.places (x ::ₘ xs) = l.places xs := by
  refine Finset.sum_congr rfl fun s _ => ?_
  by_cases hs : x / 2 ^ 16 = s
  · rw [← hs, h0, Nat.min_zero, Nat.min_zero]
  · rw [Multiset.countP_cons, if_neg hs, Nat.add_zero]

theorem places_mono {xs : Multiset ℕ} (hle : ∀ s < L2_CAPACITY, l.room s ≤ l'.room s) :
    l.places xs ≤ l'.places xs :=
  Finset.sum_le_sum fun s hs => min_le_min_left _ (hle s (Finset.mem_range.mp hs))

end Insert

section Remove

/-- The last full bitset is taken off the list. -/
theorem Inv.popFull_spec (h : Inv l) (hsize : 0 < l.size) :
    Inv l.popFull ∧ l.popFull.assignedOids = l.assignedOids ∧
      l.listedOids = l.popFull.listedOids + l.fullOids (l.size - 1) := by
  have hlt := h.size_lt
  have hle := h.first_le
  have hslots : ∀ j < l.size - 1, l.popFull.slots j = l.slots j := fun j hj =>
    update_of_ne (by omega) _ _
  have hassigned : l.popFull.assignedOids = l.assignedOids := rfl
  refine ⟨⟨?_, ?_, ?_, h.assigned, fun j hj => ?_, ?_⟩, hassigned, ?_⟩
  · change 0 < l.firstUnused - 1
    omega
  · change l.firstUnused - 1 ≤ L2_CAPACITY
    omega
  · rw [← h.numbers, L2.numbers, L2.numbers]
    change ∑ s ∈ Finset.range L2_CAPACITY, l.swathNumber s +
      seg (Function.update l.slots (l.firstUnused - 1) _ · % 2 ^ 16) 0 (l.size - 1) +
      seg (Function.update l.slots (l.firstUnused - 1) _ · % 2 ^ 16) (l.firstUnused - 1)
        (L2_CAPACITY - (l.firstUnused - 1)) = _
    obtain ⟨n, hn⟩ : ∃ n, l.size = n + 1 := ⟨l.size - 1, by omega⟩
    obtain ⟨u, hu⟩ : ∃ u, l.firstUnused = u + 1 := ⟨l.firstUnused - 1, by omega⟩
    rw [hn, hu, Nat.add_sub_cancel, Nat.add_sub_cancel, mod_update, Nat.mod_mod,
      show L2_CAPACITY - u = L2_CAPACITY - (u + 1) + 1 by omega, seg_cons, update_self,
      seg_update_of_lt (.inr (by omega)), seg_update_of_lt (.inl (by omega)), seg_snoc,
      Nat.zero_add, ← Multiset.singleton_add, ← Multiset.singleton_add]
    abel
  · change j < l.size - 1 at hj
    rw [hslots j hj]
    exact h.full j (by omega)
  · rw [hassigned, ← h.loose]
    rfl
  · obtain ⟨n, hn⟩ : ∃ n, l.size = n + 1 := ⟨l.size - 1, by omega⟩
    have hrest : ∑ j ∈ Finset.range (l.size - 1), l.popFull.fullOids j =
        ∑ j ∈ Finset.range (l.size - 1), l.fullOids j :=
      Finset.sum_congr rfl fun j hj => fullOids_congr (hslots j (Finset.mem_range.mp hj)) rfl
    rw [listedOids, listedOids]
    change _ = ∑ j ∈ Finset.range (l.size - 1), l.popFull.fullOids j + _
    rw [hrest, hn, Nat.add_sub_cancel, Finset.sum_range_succ]

/-- A full bitset that is rejected changes its place in the list. -/
theorem swapReject_slots (l : L2) (r : ℕ) :
    (l.swapReject r).slots = l.slots ∘ Equiv.swap (l.size - 1) r :=
  update_update_eq_swap l.slots (l.size - 1) r

theorem Inv.swapReject_spec (h : Inv l) {r : ℕ} (hr : r < l.size) :
    Inv (l.swapReject r) ∧ (l.swapReject r).assignedOids = l.assignedOids ∧
      (l.swapReject r).listedOids = l.listedOids := by
  have hlast : l.size - 1 < l.size := by omega
  have hsize := h.size_lt
  have hassigned : (l.swapReject r).assignedOids = l.assignedOids := rfl
  refine ⟨⟨h.first_pos, h.first_le, ?_, h.assigned, fun j hj => ?_, h.loose⟩, hassigned, ?_⟩
  · have hlisted : seg ((l.swapReject r).slots · % 2 ^ 16) 0 l.size =
        seg (l.slots · % 2 ^ 16) 0 l.size := by
      rw [swapReject_slots]
      exact seg_swap (l.slots · % 2 ^ 16) hlast hr
    have hunused : seg ((l.swapReject r).slots · % 2 ^ 16) l.firstUnused
          (L2_CAPACITY - l.firstUnused) =
        seg (l.slots · % 2 ^ 16) l.firstUnused (L2_CAPACITY - l.firstUnused) := by
      refine seg_congr fun i hle _ => ?_
      rw [swapReject_slots, comp_apply,
        Equiv.swap_apply_of_ne_of_ne (by omega) (by omega)]
    rw [← h.numbers, L2.numbers, L2.numbers]
    change ∑ s ∈ Finset.range L2_CAPACITY, l.swathNumber s +
      seg ((l.swapReject r).slots · % 2 ^ 16) 0 l.size +
      seg ((l.swapReject r).slots · % 2 ^ 16) l.firstUnused (L2_CAPACITY - l.firstUnused) = _
    rw [hlisted, hunused]
  · rw [swapReject_slots, comp_apply]
    exact h.full _ ((swap_lt hlast hr).mpr hj)
  · refine (Finset.sum_congr rfl fun j _ => ?_).trans
      (Equiv.Perm.sum_comp (Equiv.swap (l.size - 1) r) (Finset.range l.size) l.fullOids ?_)
    · rw [fullOids, fullOids, swapReject_slots, comp_apply]
      rfl
    · intro j hj
      rw [Finset.coe_range, Set.mem_Iio]
      by_contra hge
      exact hj (Equiv.swap_apply_of_ne_of_ne (by omega) (by omega))

/-- The bitmap of a swath is unassigned. -/
theorem Inv.unassign_spec (h : Inv l) {s : ℕ} (hs : s < L2_CAPACITY) (ha : l.assignments s ≠ 0) :
    Inv (l.unassign s (l.maps (l.assignments s)).values.length) ∧
      l.assignedOids =
        (l.unassign s (l.maps (l.assignments s)).values.length).assignedOids + l.swathOids s ∧
      (l.unassign s (l.maps (l.assignments s)).values.length).listedOids = l.listedOids := by
  set l' := l.unassign s (l.maps (l.assignments s)).values.length with hl'
  have hlt := h.size_lt
  have hle := h.first_le
  have hother : ∀ i, i ≠ s → l'.assignments i = l.assignments i := fun i hne =>
    update_of_ne hne _ _
  have hself : l'.assignments s = 0 := update_self _ _ _
  have hslots : ∀ j < l.size, l'.slots j = l.slots j := fun j hj =>
    update_of_ne (by omega) _ _
  have hnum := sum_swathNumber l l' hs rfl
  rw [if_pos rfl, add_zero, swathNumber, if_neg ha] at hnum
  have hsum := sum_swathOids l l' hs fun i _ hne =>
    swathOids_congr (hother i hne) fun _ => rfl
  rw [show l'.swathOids s = 0 from if_pos hself, add_zero] at hsum
  refine ⟨⟨?_, ?_, ?_, fun i hi ha' => ?_, fun j hj => ?_, ?_⟩, hsum.symm, ?_⟩
  · have hcard := congrArg Multiset.card hnum
    rw [Multiset.card_add, Multiset.card_singleton] at hcard
    change 0 < l.firstUnused - 1
    omega
  · change l.firstUnused - 1 ≤ L2_CAPACITY
    omega
  · rw [← h.numbers, L2.numbers, L2.numbers, ← hnum]
    change _ + seg (Function.update l.slots (l.firstUnused - 1) _ · % 2 ^ 16) 0 l.size +
      seg (Function.update l.slots (l.firstUnused - 1) _ · % 2 ^ 16) (l.firstUnused - 1)
        (L2_CAPACITY - (l.firstUnused - 1)) = _
    obtain ⟨u, hu⟩ : ∃ u, l.firstUnused = u + 1 := ⟨l.firstUnused - 1, by omega⟩
    rw [hu, Nat.add_sub_cancel, mod_update, Nat.mod_eq_of_lt (h.assigned_bounds hs ha),
      show L2_CAPACITY - u = L2_CAPACITY - (u + 1) + 1 by omega, seg_cons, update_self,
      seg_update_of_lt (.inr (by omega)), seg_update_of_lt (.inl (by omega)),
      ← Multiset.singleton_add]
    abel
  · have hne : i ≠ s := fun heq => ha' (heq ▸ hself)
    rw [hother i hne] at ha' ⊢
    exact h.assigned i hi ha'
  · rw [hslots j hj]
    exact h.full j hj
  · have hcard := congrArg Multiset.card hsum
    have hloose := h.loose_lt
    rw [Multiset.card_add, ← h.loose, card_swathOids, if_neg ha] at hcard
    change usub 32 l.looseOids _ = _
    rw [usub]
    omega
  · exact Finset.sum_congr rfl fun j hj => fullOids_congr (hslots j (Finset.mem_range.mp hj)) rfl

variable {mem : Memory}

/-- The bitsets in use can be read through `as_array`. -/
structure Readable (mem : Memory) (l : L2) : Prop where
  assigned : ∀ s < L2_CAPACITY, l.assignments s ≠ 0 → (l.maps (l.assignments s)).Reads mem
  full : ∀ j < l.size, (l.maps (l.slots j % 2 ^ 16)).Reads mem

theorem Readable.popFull (hr : Readable mem l) (h : Inv l) : Readable mem l.popFull := by
  refine ⟨hr.assigned, fun j hj => ?_⟩
  change j < l.size - 1 at hj
  have hslots : l.popFull.slots j = l.slots j := by
    have hlt := h.size_lt
    exact update_of_ne (by omega) _ _
  rw [hslots]
  exact hr.full j (by omega)

theorem Readable.swapReject (hr : Readable mem l) {r : ℕ} (hlt : r < l.size) :
    Readable mem (l.swapReject r) := by
  refine ⟨hr.assigned, fun j hj => ?_⟩
  rw [swapReject_slots, comp_apply]
  exact hr.full _ ((swap_lt (by omega) hlt).mpr hj)

theorem Readable.unassign (hr : Readable mem l) (h : Inv l) (s n : ℕ) :
    Readable mem (l.unassign s n) := by
  refine ⟨fun i hi ha => ?_, fun j hj => ?_⟩
  · have hne : i ≠ s := fun heq => ha (heq ▸ update_self _ _ _)
    have hother : (l.unassign s n).assignments i = l.assignments i :=
      update_of_ne hne _ _
    rw [hother] at ha ⊢
    exact hr.assigned i hi ha
  · have hslots : (l.unassign s n).slots j = l.slots j := by
      have hlt := h.size_lt
      change j < l.size at hj
      exact update_of_ne (by omega) _ _
    rw [hslots]
    exact hr.full j hj

/-- An OID is in the swath that its bitset was accepted for. -/
theorem accepted_of_mem {f : ℕ → Bool} {b : SparseBitset} (hb : b.Narrow) {s : ℕ}
    (hf : f (s * 2 ^ 16) = true) {x : ℕ} (hx : x ∈ b.values.map (s * 2 ^ 16 + ·)) :
    f (x / 2 ^ 16 * 2 ^ 16) = true := by
  obtain ⟨v, hv, rfl⟩ := List.mem_map.mp hx
  have hlt := hb v (b.values_subset hv)
  rw [show (s * 2 ^ 16 + v) / 2 ^ 16 = s by omega]
  exact hf

/-- `_scan_l2` takes whole bitsets off the list, so it may overshoot its target; they are
those that the filter accepts. -/
theorem Inv.scan_filtered (f : ℕ → Bool) : ∀ (n : ℕ) {l : L2} (target : ℤ) (r : ℕ), Inv l →
    Readable mem l →
    ∃ l' xs, scan mem f n l target r = some (l', xs, target - xs.length) ∧
      Inv l' ∧ Readable mem l' ∧ l'.maps = l.maps ∧ l'.assignedOids = l.assignedOids ∧
      l.listedOids = l'.listedOids + (xs : Multiset ℕ) ∧ (xs.length : ℤ) ≤ max 0 (target + 15) ∧
      ((∀ b, (l.maps b).Narrow) → ∀ x ∈ xs, f (x / 2 ^ 16 * 2 ^ 16) = true) := by
  intro n
  induction n with
  | zero =>
    intro l target r h hr
    refine ⟨l, [], ?_, h, hr, rfl, rfl, (add_zero _).symm, le_max_left _ _, nofun⟩
    rw [scan, List.length_nil, Nat.cast_zero, sub_zero]
  | succ n ih =>
    intro l target r h hr
    rw [scan]
    by_cases hc : 0 < target ∧ r < l.size
    · rw [if_pos hc]
      dsimp only
      by_cases hf : f (l.slots (l.size - 1) / 2 ^ 16 * 2 ^ 16) = true
      · obtain ⟨hinv, hassigned, hlisted⟩ := h.popFull_spec (by omega)
        obtain ⟨l', xs, heq, hinv', hr', hmaps, hassigned', hlisted', hlen, hacc⟩ :=
          ih (target - SparseBitset.CAPACITY) r hinv (hr.popFull h)
        obtain ⟨hok, hfull⟩ := h.full (l.size - 1) (by omega)
        have hread := hok.readAll_eq (hr.full (l.size - 1) (by omega)) hfull
        refine ⟨l', (l.maps (l.slots (l.size - 1) % 2 ^ 16)).values.map
          (l.slots (l.size - 1) / 2 ^ 16 * 2 ^ 16 + ·) ++ xs, ?_, hinv', hr', hmaps,
          hassigned'.trans hassigned, ?_, ?_, fun hn x hx => ?_⟩
        · rw [if_pos hf, hread, heq]
          simp only [Option.bind_eq_bind, Option.bind_some, List.length_append, List.length_map,
            hfull, SparseBitset.CAPACITY, Nat.cast_add, Nat.cast_ofNat, sub_add_eq_sub_sub]
          rfl
        · rw [hlisted, hlisted', fullOids, Multiset.map_coe, ← Multiset.coe_add, add_assoc,
            add_comm (xs : Multiset ℕ)]
        · rw [SparseBitset.CAPACITY] at hlen
          rw [List.length_append, List.length_map, hfull]
          omega
        · rw [List.mem_append] at hx
          exact hx.elim (accepted_of_mem (hn _) hf) (hacc hn x)
      · -- the bitset stays, at the front of the list
        obtain ⟨hinv, hassigned, hlisted⟩ := h.swapReject_spec hc.2
        obtain ⟨l', xs, heq, hinv', hr', hmaps, hassigned', hlisted', hlen, hacc⟩ :=
          ih target (r + 1) hinv (hr.swapReject hc.2)
        refine ⟨l', xs, ?_, hinv', hr', hmaps, hassigned'.trans hassigned,
          hlisted.symm.trans hlisted', hlen, hacc⟩
        rw [if_neg hf, heq]
    · refine ⟨l, [], ?_, h, hr, rfl, rfl, (add_zero _).symm, le_max_left _ _, nofun⟩
      rw [if_neg hc, List.length_nil, Nat.cast_zero, sub_zero]

/-- If a scan ends below its target, then the filter refuses all bitsets that stay. -/
theorem Inv.scan_refused {f : ℕ → Bool} : ∀ (n : ℕ) {l : L2} {target : ℤ} {r : ℕ} {l' : L2}
    {xs : List ℕ} {left : ℤ}, Inv l → r ≤ l.size → l.size ≤ r + n →
    (∀ j < r, f (l.slots j / 2 ^ 16 * 2 ^ 16) = false) →
    l.scan mem f n target r = some (l', xs, left) → 0 < left →
    ∀ j < l'.size, f (l'.slots j / 2 ^ 16 * 2 ^ 16) = false := by
  intro n
  induction n with
  | zero =>
    intro l target r l' xs left _ _ hle hold hscan _
    cases hscan
    exact fun j hj => hold j (by omega)
  | succ n ih =>
    intro l target r l' xs left h hr hle hold hscan hleft
    have hsize := h.size_lt
    rw [scan] at hscan
    by_cases hc : 0 < target ∧ r < l.size
    · rw [if_pos hc] at hscan
      dsimp only at hscan
      by_cases hf : f (l.slots (l.size - 1) / 2 ^ 16 * 2 ^ 16) = true
      · rw [if_pos hf] at hscan
        simp only [Option.bind_eq_bind, Option.bind_eq_some_iff] at hscan
        obtain ⟨offsets, -, ⟨l₁, xs₁, left₁⟩, hrest, heq⟩ := hscan
        cases heq
        have hslots : ∀ j < r, l.popFull.slots j = l.slots j := fun j hj =>
          update_of_ne (by omega) _ _
        exact ih (h.popFull_spec (by omega)).1 (show r ≤ l.size - 1 by omega)
          (show l.size - 1 ≤ r + n by omega) (fun j hj => by rw [hslots j hj]; exact hold j hj)
          hrest hleft
      · -- the bitset goes to place `r`, where it stays
        rw [if_neg hf] at hscan
        refine ih (h.swapReject_spec hc.2).1 (show r + 1 ≤ l.size by omega)
          (show l.size ≤ r + 1 + n by omega) (fun j hj => ?_) hscan hleft
        rw [swapReject_slots, comp_apply]
        rcases Nat.lt_succ_iff_lt_or_eq.mp hj with hlt | rfl
        · rw [Equiv.swap_apply_of_ne_of_ne (by omega) (by omega)]
          exact hold j hlt
        · rw [Equiv.swap_apply_right]
          exact Bool.not_eq_true _ ▸ hf
    · rw [if_neg hc] at hscan
      cases hscan
      exact fun j hj => hold j (by omega)

/-- `_scan_l2` without a filter, over the whole list: it takes off all bitsets, or as many
as it needs. -/
theorem Inv.scan_spec {l : L2} (target : ℤ) (h : Inv l) (hr : Readable mem l) :
    ∃ l' xs, scan mem (fun _ => true) l.size l target 0 = some (l', xs, target - xs.length) ∧
      Inv l' ∧ Readable mem l' ∧ l'.maps = l.maps ∧ l'.assignedOids = l.assignedOids ∧
      l.listedOids = l'.listedOids + (xs : Multiset ℕ) ∧
      (xs.length : ℤ) ≤ max 0 (target + 15) ∧
      ((xs.length : ℤ) < target → xs.length = 16 * l.size) := by
  obtain ⟨l', xs, heq, hinv, hr', hmaps, hassigned, hlisted, hlen, -⟩ :=
    Inv.scan_filtered (fun _ => true) l.size target 0 h hr
  refine ⟨l', xs, heq, hinv, hr', hmaps, hassigned, hlisted, hlen, fun hlt => ?_⟩
  have hnone : l'.size = 0 := by
    by_contra hne
    exact absurd (h.scan_refused l.size (Nat.zero_le _) (by omega) nofun heq (by omega) 0
      (Nat.pos_of_ne_zero hne)) (by simp)
  have hcard := congrArg Multiset.card hlisted
  rw [Multiset.card_add, h.card_listedOids, hinv.card_listedOids, hnone, Multiset.coe_card] at hcard
  omega

/-- The loop of `_scavenge_l2`.  If it ends below its target, then no swath that it has seen
and that the filter accepts is assigned. -/
theorem Inv.scavengeLoop_filtered (f : ℕ → Bool) : ∀ (n : ℕ) {l : L2} (target : ℤ) (i : ℕ),
    Inv l → Readable mem l →
    ∃ l' xs i', scavengeLoop mem f n l target i = some (l', xs, target - xs.length, i') ∧
      Inv l' ∧ Readable mem l' ∧ l'.maps = l.maps ∧
      l.assignedOids = l'.assignedOids + (xs : Multiset ℕ) ∧
      l'.listedOids = l.listedOids ∧ (xs.length : ℤ) ≤ max 0 (target + 14) ∧
      ((∀ b, (l.maps b).Narrow) → ∀ x ∈ xs, f (x / 2 ^ 16 * 2 ^ 16) = true) ∧
      (∀ s, l.assignments s = 0 → l'.assignments s = 0) ∧
      ((xs.length : ℤ) < target → ∀ k, i ≤ k → k < i + n →
        f ((l.scanHand + k) % 2 ^ 16 * 2 ^ 16) = true →
        l'.assignments ((l.scanHand + k) % 2 ^ 16) = 0) := by
  intro n
  induction n with
  | zero =>
    intro l target i h hr
    refine ⟨l, [], i, ?_, h, hr, rfl, (add_zero _).symm, rfl, le_max_left _ _, nofun,
      fun _ h0 => h0, fun _ k hle hlt => absurd hlt (by omega)⟩
    rw [scavengeLoop, List.length_nil, Nat.cast_zero, sub_zero]
  | succ n ih =>
    intro l target i h hr
    rw [scavengeLoop]
    by_cases hc : 0 < target
    · rw [if_pos hc]
      dsimp only
      by_cases ha : l.assignments ((l.scanHand + i) % 2 ^ 16) = 0 ∨
          ¬ f ((l.scanHand + i) % 2 ^ 16 * 2 ^ 16) = true
      · -- the swath has no bitset, or it is not accepted
        obtain ⟨l', xs, i', heq, hinv', hr', hmaps, hassigned, hlisted, hlen, hacc, hzero, hall⟩ :=
          ih target (i + 1) h hr
        refine ⟨l', xs, i', ?_, hinv', hr', hmaps, hassigned, hlisted, hlen, hacc, hzero,
          fun hx k hle hlt hf => ?_⟩
        · rw [if_pos ha, heq]
        · rcases Nat.eq_or_lt_of_le hle with rfl | hlt'
          · exact hzero _ (ha.resolve_right (not_not.mpr hf))
          · exact hall hx k hlt' (by omega) hf
      · obtain ⟨hne, hf⟩ := not_or.mp ha
        replace hf := not_not.mp hf
        have hs : (l.scanHand + i) % 2 ^ 16 < L2_CAPACITY := by
          rw [L2_CAPACITY]
          exact Nat.mod_lt _ (by norm_num)
        obtain ⟨hok, hshort⟩ := h.assigned _ hs hne
        have hread := hok.readValues_eq (hr.assigned _ hs hne) hshort
        obtain ⟨hinv, hsplit, hsame⟩ := h.unassign_spec hs hne
        obtain ⟨l', xs, i', heq, hinv', hr', hmaps, hassigned, hlisted, hlen, hacc, hzero, hall⟩ :=
          ih (target - (l.maps (l.assignments ((l.scanHand + i) % 2 ^ 16))).values.length) (i + 1)
            hinv (hr.unassign h _ _)
        refine ⟨l', (l.maps (l.assignments ((l.scanHand + i) % 2 ^ 16))).values.map
          ((l.scanHand + i) % 2 ^ 16 * 2 ^ 16 + ·) ++ xs, i', ?_, hinv', hr', hmaps, ?_,
          hlisted.trans hsame, ?_, fun hn x hx => ?_, fun s h0 => ?_, fun hx k hle hlt hf' => ?_⟩
        · rw [if_neg ha, hread]
          simp only [Option.bind_eq_bind, Option.bind_some, heq, List.length_append,
            List.length_map, Nat.cast_add, sub_add_eq_sub_sub]
          rfl
        · rw [hsplit, hassigned, swathOids, if_neg hne, Multiset.map_coe, ← Multiset.coe_add,
            add_assoc, add_comm (xs : Multiset ℕ)]
        · rw [List.length_append, List.length_map]
          omega
        · rw [List.mem_append] at hx
          exact hx.elim (accepted_of_mem (hn _) hf) (hacc hn x)
        · refine hzero s ?_
          change Function.update l.assignments _ 0 s = 0
          by_cases hs : s = (l.scanHand + i) % 2 ^ 16
          · rw [hs, update_self]
          · rw [update_of_ne hs, h0]
        · rw [List.length_append, List.length_map] at hx
          rcases Nat.eq_or_lt_of_le hle with rfl | hlt'
          · exact hzero _ (update_self _ _ _)
          · exact hall (by omega) k hlt' (by omega) hf'
    · refine ⟨l, [], i, ?_, h, hr, rfl, (add_zero _).symm, rfl, le_max_left _ _, nofun,
        fun _ h0 => h0, fun hx => absurd hx ?_⟩
      · rw [if_neg hc, List.length_nil, Nat.cast_zero, sub_zero]
      · rw [List.length_nil, Nat.cast_zero]
        exact hc

/-- Every swath is seen, from any position of the scan hand. -/
theorem exists_swath (hand : ℕ) {s : ℕ} (hs : s < L2_CAPACITY) :
    ∃ k < L2_CAPACITY, (hand + k) % 2 ^ 16 = s := by
  rw [L2_CAPACITY] at hs ⊢
  exact ⟨(s + 2 ^ 16 - hand % 2 ^ 16) % 2 ^ 16, Nat.mod_lt _ (by norm_num), by omega⟩

/-- `_scavenge_l2` reaches its target if there are enough loose OIDs. -/
theorem Inv.scavenge_spec (h : Inv l) (hr : Readable mem l) {n : ℕ} (hn : n ≤ l.looseOids) :
    ∃ l' xs, l.scavenge mem (fun _ => true) n = some (l', xs, (n : ℤ) - xs.length) ∧
      Inv l' ∧ Readable mem l' ∧ l'.maps = l.maps ∧
      l.assignedOids + l.listedOids = l'.assignedOids + l'.listedOids + (xs : Multiset ℕ) ∧
      n ≤ xs.length ∧ xs.length ≤ n + 14 := by
  obtain ⟨l', xs, i', heq, hinv, hr', hmaps, hassigned, hlisted, hlen, -, -, hall⟩ :=
    scavengeLoop_filtered (fun _ => true) L2_CAPACITY (n : ℤ) 0 h hr
  refine ⟨{ l' with scanHand := (l'.scanHand + i') % 2 ^ 32 }, xs, ?_,
    ⟨hinv.first_pos, hinv.first_le, hinv.numbers, hinv.assigned, hinv.full, hinv.loose⟩,
    ⟨hr'.assigned, hr'.full⟩, hmaps, ?_, ?_, by omega⟩
  · rw [scavenge, heq]
    rfl
  · change _ = l'.assignedOids + l'.listedOids + _
    rw [hassigned, hlisted]
    abel
  · by_contra hlt
    have hnone : l'.assignedOids = 0 := Finset.sum_eq_zero fun s hs => by
      obtain ⟨k, hk, rfl⟩ := exists_swath l.scanHand (Finset.mem_range.mp hs)
      exact if_pos (hall (by omega) k (Nat.zero_le k) (by omega) rfl)
    have hcard := congrArg Multiset.card hassigned
    rw [hnone, zero_add, Multiset.coe_card, ← h.loose] at hcard
    omega

end Remove

end L2

end PreemptDB
