/-
What L3 holds.

* `L3.oids`, `L3.Shape`, `L3.Inv` — the OIDs of its words, and its bookkeeping;
* `L3.Stored` — the array behind it;
* `Shape.insertAll_spec`, `Shape.init_spec`, `Inv.takeWord` — insertion, a change of size,
  and emptying a word.
-/
import PreemptDB.OidL3

namespace PreemptDB

open Segment

namespace L3

/-- The OIDs of a word. -/
def wordOids (l : L3) (i : ℕ) : Multiset ℕ := (l.words i).val.map (i * 64 + ·)

/-- The OIDs in L3. -/
def oids (l : L3) : Multiset ℕ := ∑ i ∈ Finset.range l.capacity, l.wordOids i

/-- The OIDs in the words from `endWord` on. -/
def above (l : L3) (endWord : ℕ) : Multiset ℕ :=
  ∑ i ∈ Finset.Ico endWord l.capacity, l.wordOids i

/-- The size and the words. -/
structure Shape (l : L3) : Prop where
  capacity_lt : l.capacity < 2 ^ 26
  bits : ∀ i < l.capacity, ∀ b ∈ l.words i, b < 64

/-- The array reserves room for all words, and the words of L3 are in it. -/
structure Stored (l : L3) : Prop where
  inv : l.store.Inv
  capacity_eq : l.store.capacity = l3AllocSize (2 ^ 26)
  holds : l.valid → l3AllocSize l.capacity ≤ l.store.size

/-- L3 can be made as large: `ensure_size` asks for 128 MiB more than it needs, unless the
array is large enough already. -/
def Fits (l : L3) (endWord : ℕ) : Prop :=
  endWord ≤ 3 * 2 ^ 24 ∨ l3AllocSize endWord ≤ l.store.size

/-- The scan hand is in L3, and the counter is right. -/
structure Inv (l : L3) : Prop extends Shape l where
  hand_lt : l.valid → l.scanHand < l.capacity
  loose : l.valid → l.looseOids = l.oids.card

variable {l l' : L3}

theorem card_wordOids (l : L3) (i : ℕ) : (l.wordOids i).card = (l.words i).card :=
  Multiset.card_map _ _

theorem wordOids_le (l : L3) {i : ℕ} (hi : i < l.capacity) : l.wordOids i ≤ l.oids :=
  Finset.single_le_sum (fun _ _ => Multiset.zero_le _) (Finset.mem_range.mpr hi)

theorem wordOids_eq_zero_iff {i : ℕ} : l.wordOids i = 0 ↔ l.words i = ∅ := by
  rw [wordOids, Multiset.map_eq_zero, Finset.val_eq_zero]

theorem above_eq_zero_iff {k : ℕ} :
    l.above k = 0 ↔ ∀ i, k ≤ i → i < l.capacity → l.words i = ∅ := by
  rw [above, Finset.sum_eq_zero_iff]
  simp only [Finset.mem_Ico, wordOids_eq_zero_iff, and_imp]

theorem mem_oids (h : l.Shape) {x : ℕ} : x ∈ l.oids ↔
    x / 64 < l.capacity ∧ x % 64 ∈ l.words (x / 64) := by
  rw [oids, Multiset.mem_sum]
  constructor
  · rintro ⟨i, hi, hx⟩
    obtain ⟨b, hb, rfl⟩ := Multiset.mem_map.mp hx
    have hi' := Finset.mem_range.mp hi
    have hlt := h.bits i hi' b hb
    rw [show (i * 64 + b) / 64 = i by omega, show (i * 64 + b) % 64 = b by omega]
    exact ⟨hi', hb⟩
  · rintro ⟨hi, hx⟩
    exact ⟨x / 64, Finset.mem_range.mpr hi, Multiset.mem_map.mpr ⟨_, hx, Nat.div_add_mod' x 64⟩⟩

theorem words_eq_empty (h0 : l.oids = 0) {i : ℕ} (hi : i < l.capacity) : l.words i = ∅ :=
  wordOids_eq_zero_iff.mp (Multiset.le_zero.mp (h0 ▸ l.wordOids_le hi))

theorem Shape.card_word_le (h : l.Shape) {i : ℕ} (hi : i < l.capacity) :
    (l.words i).card ≤ 64 := by
  refine (Finset.card_le_card fun b hb => Finset.mem_range.mpr (h.bits i hi b hb)).trans_eq ?_
  exact Finset.card_range 64

/-- The words from `k` on are empty if no OID is there. -/
theorem Shape.above_eq_zero_iff (h : l.Shape) {k : ℕ} :
    l.above k = 0 ↔ ∀ x ∈ l.oids, x / 64 < k := by
  rw [L3.above_eq_zero_iff]
  constructor
  · intro hempty x hx
    obtain ⟨hlt, hmem⟩ := (mem_oids h).mp hx
    by_contra hk
    rw [hempty _ (not_lt.mp hk) hlt] at hmem
    exact Finset.notMem_empty _ hmem
  · intro hlow i hk hi
    refine Finset.eq_empty_of_forall_notMem fun b hb => ?_
    have hlt := h.bits i hi b hb
    have := hlow (i * 64 + b) ((mem_oids h).mpr (by
      rw [show (i * 64 + b) / 64 = i by omega, show (i * 64 + b) % 64 = b by omega]
      exact ⟨hi, hb⟩))
    omega

theorem Stored.congr (h : l.Stored) (hcap : l'.capacity = l.capacity)
    (hstore : l'.store = l.store) : l'.Stored :=
  ⟨hstore ▸ h.inv, hstore ▸ h.capacity_eq, fun hv => by
    rw [hcap, hstore]
    exact h.holds (by rwa [valid, hcap] at hv)⟩

/-- A word changes. -/
theorem oids_update {i : ℕ} (hi : i < l.capacity) (w : Finset ℕ)
    (hcap : l'.capacity = l.capacity) (hwords : l'.words = Function.update l.words i w) :
    l'.oids + l.wordOids i = l.oids + w.val.map (i * 64 + ·) := by
  have hswap := sum_swap (f := l.wordOids) (g := l'.wordOids) (Finset.mem_range.mpr hi)
    fun j _ hj => by rw [wordOids, wordOids, hwords, Function.update_of_ne hj]
  rw [oids, hcap, hswap, wordOids, hwords, Function.update_self]
  rfl

theorem Shape.update (h : l.Shape) {i : ℕ} {w : Finset ℕ} (hw : ∀ b ∈ w, b < 64)
    (hcap : l'.capacity = l.capacity) (hwords : l'.words = Function.update l.words i w) :
    l'.Shape := by
  refine ⟨hcap ▸ h.capacity_lt, fun j hj b hb => ?_⟩
  rw [hwords] at hb
  by_cases hji : j = i
  · rw [hji, Function.update_self] at hb
    exact hw b hb
  · rw [Function.update_of_ne hji] at hb
    exact h.bits j (hcap ▸ hj) b hb

/-- `_insert_l3` sets a bit that was not set. -/
theorem Shape.insert_spec (h : l.Shape) {x : ℕ} (hx : x / 64 < l.capacity) (hmem : x ∉ l.oids)
    (hcard : l.oids.card + 1 < 2 ^ 32) :
    ∃ l', l.insert x = .ok l' ∧ l'.Shape ∧ l'.oids = x ::ₘ l.oids ∧ l'.capacity = l.capacity ∧
      l'.scanHand = l.scanHand ∧ l'.store = l.store ∧ (l.Inv → l'.Inv) := by
  have hsplit : x / 64 * 64 + x % 64 = x := Nat.div_add_mod' x 64
  have hbit : x % 64 ∉ l.words (x / 64) := by
    intro hb
    refine hmem (Multiset.mem_of_le (l.wordOids_le hx) ?_)
    exact Multiset.mem_map.mpr ⟨x % 64, hb, hsplit⟩
  let l' : L3 := { l with
    words := Function.update l.words (x / 64) (Insert.insert (x % 64) (l.words (x / 64)))
    looseOids := (l.looseOids + 1) % 2 ^ 32 }
  have hshape : l'.Shape := by
    refine h.update (fun b hb => ?_) rfl rfl
    rw [Finset.mem_insert] at hb
    obtain rfl | hb := hb
    · exact Nat.mod_lt _ (by norm_num)
    · exact h.bits _ hx b hb
  have hoids : l'.oids = x ::ₘ l.oids := by
    have hswap : l'.oids + _ = _ :=
      oids_update hx (Insert.insert (x % 64) (l.words (x / 64))) rfl rfl
    rw [Finset.insert_val_of_notMem hbit, Multiset.map_cons, hsplit, Multiset.add_cons,
      ← Multiset.cons_add] at hswap
    exact add_right_cancel hswap
  refine ⟨l', if_pos hx, hshape, hoids, rfl, rfl, rfl,
    fun hi => ⟨hshape, hi.hand_lt, fun hv => ?_⟩⟩
  rw [hoids, Multiset.card_cons]
  show (l.looseOids + 1) % 2 ^ 32 = _
  rw [hi.loose hv, Nat.mod_eq_of_lt hcard]

theorem Shape.insertAll_spec : ∀ (xs : List ℕ) {l : L3}, l.Shape →
    (∀ x ∈ xs, x / 64 < l.capacity) → (l.oids + (xs : Multiset ℕ)).Nodup →
    (l.oids + (xs : Multiset ℕ)).card < 2 ^ 32 →
    ∃ l', l.insertAll xs = .ok l' ∧ l'.Shape ∧ l'.oids = l.oids + (xs : Multiset ℕ) ∧
      l'.capacity = l.capacity ∧ l'.scanHand = l.scanHand ∧ l'.store = l.store ∧
      (l.Inv → l'.Inv) := by
  intro xs
  induction xs with
  | nil =>
    intro l h _ _ _
    exact ⟨l, rfl, h, (add_zero _).symm, rfl, rfl, rfl, id⟩
  | cons x xs ih =>
    intro l h hroom hnodup hcard
    rw [← Multiset.cons_coe, Multiset.add_cons] at hnodup hcard
    have hcard' := hcard
    rw [Multiset.card_cons, Multiset.card_add] at hcard'
    obtain ⟨l₁, heq₁, hshape₁, hoids₁, hcap₁, hhand₁, hstore₁, hinv₁⟩ :=
      h.insert_spec (hroom x List.mem_cons_self)
      (fun hin => (Multiset.nodup_cons.mp hnodup).1 (Multiset.mem_add.mpr (.inl hin))) (by omega)
    obtain ⟨l₂, heq₂, hshape₂, hoids₂, hcap₂, hhand₂, hstore₂, hinv₂⟩ := ih hshape₁
      (fun y hy => hcap₁ ▸ hroom y (List.mem_cons_of_mem x hy))
      (by rwa [hoids₁, Multiset.cons_add]) (by rwa [hoids₁, Multiset.cons_add])
    refine ⟨l₂, ?_, hshape₂, ?_, hcap₂.trans hcap₁, hhand₂.trans hhand₁, hstore₂.trans hstore₁,
      hinv₂ ∘ hinv₁⟩
    · rw [insertAll, heq₁]
      exact heq₂
    · rw [hoids₂, hoids₁, ← Multiset.cons_coe, Multiset.add_cons, Multiset.cons_add]

theorem resize_capacity (l : L3) (k : ℕ) : (l.resize k).capacity = k := by
  rw [resize]
  split
  · rfl
  · split
    · split
      next h0 => exact h0.symm
      next => rfl
    · omega

/-- New words are empty. -/
theorem resize_words (l : L3) {k i : ℕ} (hi : i < k) :
    (l.resize k).words i = if i < l.capacity then l.words i else ∅ := by
  rw [resize]
  split
  next hlt =>
    by_cases hc : i < l.capacity
    · exact (if_neg fun h => absurd h.1 (by omega)).trans (if_pos hc).symm
    · exact (if_pos ⟨Nat.le_of_not_lt hc, hi⟩).trans (if_neg hc).symm
  next hge =>
    have hc : i < l.capacity := by omega
    rw [if_pos hc]
    split
    · split <;> rfl
    · rfl

theorem resize_header {k : ℕ} (hk : k ≠ 0) (hhand : l.valid → l.scanHand < l.capacity) :
    (l.resize k).looseOids = (if l.valid then l.looseOids else 0) ∧
      (l.resize k).scanHand = if l.valid then l.scanHand else 0 := by
  rw [resize]
  split
  next => exact ⟨rfl, rfl⟩
  next hge =>
    have hv : l.valid := show l.capacity ≠ 0 by omega
    have hin := hhand hv
    rw [if_pos hv, if_pos hv]
    split
    · exact ⟨rfl, if_neg (by omega)⟩
    · exact ⟨rfl, rfl⟩

/-- `init_l3` gives up the words above its argument. -/
theorem Shape.resize_spec (h : l.Shape) {k : ℕ} (hk : k < 2 ^ 26) :
    (l.resize k).Shape ∧ l.oids = (l.resize k).oids + l.above k ∧
      (l.Inv → l.above k = 0 → (l.valid → l.scanHand < k) → (l.resize k).Inv) := by
  have hcap := l.resize_capacity k
  have hshape : (l.resize k).Shape := by
    refine ⟨hcap.trans_lt hk, fun i hi b hb => ?_⟩
    rw [l.resize_words (hcap ▸ hi)] at hb
    split at hb
    next hc => exact h.bits i hc b hb
    next => exact absurd hb (Finset.notMem_empty b)
  have hoids : l.oids = (l.resize k).oids + l.above k := by
    have hsum : (l.resize k).oids =
        ∑ i ∈ Finset.range k, if i < l.capacity then l.wordOids i else 0 := by
      rw [oids, hcap]
      refine Finset.sum_congr rfl fun i hi => ?_
      rw [wordOids, l.resize_words (Finset.mem_range.mp hi)]
      split <;> rfl
    rw [hsum, ← Finset.sum_filter, oids, above,
      ← Finset.sum_filter_add_sum_filter_not (Finset.range l.capacity) (· < k)]
    congr 2 <;> ext i <;> simp only [Finset.mem_filter, Finset.mem_range, Finset.mem_Ico] <;> omega
  refine ⟨hshape, hoids, fun hi h0 hhand => ⟨hshape, fun hv => ?_, fun hv => ?_⟩⟩
  all_goals obtain ⟨hloose, hscan⟩ := resize_header (hcap ▸ hv : k ≠ 0) hi.hand_lt
  · rw [hscan, hcap]
    split
    next hv' => exact hhand hv'
    next => exact Nat.pos_of_ne_zero (hcap ▸ hv)
  · rw [h0, add_zero] at hoids
    rw [hloose, ← hoids]
    split
    next hv' => exact hi.loose hv'
    next hv' =>
      rw [oids, not_not.mp hv']
      rfl

/-- `init_l3` does not throw if the new words fit. -/
theorem Stored.init_spec (h : l.Stored) {k : ℕ} (hk : k < 2 ^ 26) (hfit : l.Fits k) :
    ∃ d, l.init k = .ok { l.resize k with store := d } ∧
      ({ l.resize k with store := d } : L3).Stored ∧ (l.capacity ≤ k → l.store.size ≤ d.size) := by
  have hkcap := l.resize_capacity k
  have hmax : l3AllocSize k ≤ l.store.capacity := by
    rw [h.capacity_eq, l3AllocSize, l3AllocSize]
    omega
  obtain ⟨d, hd, hinv, hpages, hsize, hmono⟩ : ∃ d, l.resizeStore k = .ok d ∧ d.Inv ∧
      d.capacityPages = l.store.capacityPages ∧ (k ≠ 0 → l3AllocSize k ≤ d.size) ∧
      (l.capacity ≤ k → l.store.size ≤ d.size) := by
    rw [resizeStore]
    rcases lt_trichotomy l.capacity k with hlt | rfl | hlt
    · have hroom : Dynarray.alignUp (l3AllocSize k) ≤ l.store.size ∨
          Dynarray.alignUp (l3AllocSize k) + 128 * (1024 * 1024) ≤ l.store.capacity := by
        obtain hsmall | hle := hfit
        · have hle : Dynarray.alignUp (l3AllocSize k) ≤ 6183 * Dynarray.pageSize :=
            Dynarray.alignUp_le (by rw [l3AllocSize, Dynarray.pageSize]; omega)
          rw [Dynarray.pageSize] at hle
          rw [h.capacity_eq, show l3AllocSize (2 ^ 26) = 8231 * 2 ^ 16 from rfl]
          exact .inr (by omega)
        · exact .inl (Dynarray.alignUp_le hle)
      obtain ⟨d, hd⟩ := (h.inv.ensureSize_ok_iff hmax).mpr hroom
      obtain ⟨hinv, hpages, hle⟩ := h.inv.ensureSize hd
      exact ⟨d, by rw [if_pos hlt, hd], hinv, hpages,
        fun _ => h.inv.le_size_of_ensureSize hmax hd, fun _ => hle⟩
    · exact ⟨l.store, by rw [if_neg (lt_irrefl _), if_neg (lt_irrefl _)], h.inv, rfl, h.holds,
        fun _ => le_rfl⟩
    · have hold := h.holds (show l.capacity ≠ 0 by omega)
      have hle : l3AllocSize k ≤ l.store.size := by
        rw [l3AllocSize] at hold ⊢
        omega
      obtain ⟨d, hd⟩ := h.inv.truncate_ok hle
      obtain ⟨hinv, hpages, hsize⟩ := h.inv.truncate hd
      have halign : l3AllocSize k ≤ Dynarray.alignUp (l3AllocSize k) :=
        Dynarray.le_alignUp (by rw [l3AllocSize]; omega)
      exact ⟨d, by rw [if_neg hlt.not_gt, if_pos hlt, hd], hinv, hpages,
        fun _ => hsize.symm ▸ halign, fun hle => absurd hle (by omega)⟩
  refine ⟨d, by rw [init, hd], ⟨hinv, ?_, fun hv => ?_⟩, hmono⟩
  · rw [← h.capacity_eq, Dynarray.capacity, Dynarray.capacity]
    exact congrArg (· * Dynarray.pageSize) hpages
  · change l3AllocSize (l.resize k).capacity ≤ d.size
    rw [hkcap]
    exact hsize (hkcap ▸ hv)

/-- `init_l3`, as a whole. -/
theorem Shape.init_spec (h : l.Shape) (hs : l.Stored) {k : ℕ} (hk : k < 2 ^ 26)
    (hfit : l.Fits k) :
    ∃ l', l.init k = .ok l' ∧ l'.Shape ∧ l'.Stored ∧ l'.capacity = k ∧
      l.oids = l'.oids + l.above k ∧ l'.scanHand = (l.resize k).scanHand ∧
      (l.capacity ≤ k → l.store.size ≤ l'.store.size) ∧
      (l.Inv → l.above k = 0 → (l.valid → l.scanHand < k) → l'.Inv) := by
  obtain ⟨hshape, hoids, hkeep⟩ := h.resize_spec hk
  obtain ⟨d, hinit, hstored, hmono⟩ := hs.init_spec hk hfit
  refine ⟨_, hinit, ⟨hshape.capacity_lt, hshape.bits⟩, hstored, l.resize_capacity k, hoids, rfl,
    hmono, fun hi h0 hhand => ?_⟩
  obtain ⟨-, hlt, hloose⟩ := hkeep hi h0 hhand
  exact ⟨⟨hshape.capacity_lt, hshape.bits⟩, hlt, hloose⟩

/-- The OIDs of a word, as they are staged. -/
theorem coe_sort_map (l : L3) (i : ℕ) :
    (((l.words i).sort (· ≤ ·)).map (i * 64 + ·) : Multiset ℕ) = l.wordOids i := by
  rw [← Multiset.map_coe, Finset.sort_eq, wordOids]

/-- The fields after `takeWord`.  They are read off the equation of `takeWord`, since a proof by
computation compares the two counters. -/
theorem takeWord_fields (l : L3) (next : ℕ) :
    (l.takeWord next).capacity = l.capacity ∧
      (l.takeWord next).looseOids = usub 32 l.looseOids (l.words l.scanHand).card ∧
      (l.takeWord next).scanHand = next ∧
      (l.takeWord next).words = Function.update l.words l.scanHand ∅ ∧
      (l.takeWord next).store = l.store := by
  have hfields : ∀ (c n h : ℕ) (w : ℕ → Finset ℕ) (d : Dynarray) {l' : L3}, l' = ⟨c, n, h, w, d⟩ →
      l'.capacity = c ∧ l'.looseOids = n ∧ l'.scanHand = h ∧ l'.words = w ∧ l'.store = d := by
    rintro c n h w d l' rfl
    exact ⟨rfl, rfl, rfl, rfl, rfl⟩
  exact hfields _ _ _ _ _ (takeWord.eq_1 l next)

theorem takeWord_oids (hhand : l.scanHand < l.capacity) (next : ℕ) :
    (l.takeWord next).oids + l.wordOids l.scanHand = l.oids := by
  obtain ⟨hcap, -, -, hwords, -⟩ := l.takeWord_fields next
  have hswap := oids_update hhand ∅ hcap hwords
  rwa [Finset.empty_val, Multiset.map_zero, add_zero] at hswap

theorem Inv.takeWord (h : l.Inv) (hhand : l.scanHand < l.capacity)
    (hcard : l.oids.card < 2 ^ 32) {next : ℕ} (hnext : next < l.capacity) :
    (l.takeWord next).Inv := by
  obtain ⟨hcap, hcount, hnext', hwords, -⟩ := l.takeWord_fields next
  have hloose := h.loose (show l.capacity ≠ 0 by omega)
  have hsum := congrArg Multiset.card (takeWord_oids hhand next)
  rw [Multiset.card_add, card_wordOids, ← hloose] at hsum
  rw [← hloose] at hcard
  refine ⟨h.toShape.update (by simp) hcap hwords, fun _ => ?_, fun _ => ?_⟩
  · rwa [hcap, hnext']
  · rw [hcount, usub_eq (hsum ▸ Nat.le_add_left _ _) hcard]
    exact Nat.sub_eq_of_eq_add hsum.symm

end L3

end PreemptDB
