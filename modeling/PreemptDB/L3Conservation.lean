/-
Moving OIDs through L3 conserves them, and when it does not.

`_scavenge_l3` loses what is in the staging cache when it returns, so that it conserves OIDs
only if there is nothing to move.

* `scavengeL3_spec`, `fillCache_spec` — the calls;
* `l3_conserves` — over every run.
-/
import PreemptDB.CacheOverrun
import PreemptDB.L3Drain

namespace PreemptDB

open Segment StepRun

namespace AllocatorL3

variable {a : AllocatorL3} {staged : Multiset ℕ} {mem : Memory}

section Room

open Allocator

variable {u : Allocator} {tc : ThreadCache}

theorem unusedMaps_eq (u : Allocator) : u.unusedMaps = L2_CAPACITY - max 1 u.l2.firstUnused := by
  rw [unusedMaps]
  split
  next hv =>
    rw [max_eq_right (Nat.one_le_iff_ne_zero.mpr hv)]
  next hv =>
    rw [not_not.mp hv]
    rfl

/-- An OID that leaves L1 takes at most one bitmap. -/
theorem drainLoop_taken : ∀ (n j : ℕ) (u : Allocator),
    (drainLoop n j u).l1Size + (drainLoop n j u).l2.firstUnused ≤
      u.l1Size + n + u.l2.firstUnused := by
  intro n
  induction n with
  | zero =>
    intro j u
    exact le_rfl
  | succ n ih =>
    intro j u
    have hrest := ih (j + 1) (u.drainOid (u.l1 j))
    rw [drainLoop]
    cases hins : u.l2.insertOid (u.l1 j) with
    | none =>
      rw [drainOid_of_none hins] at hrest ⊢
      dsimp only at hrest
      omega
    | some l =>
      have hfirst := L2.insertOid_firstUnused hins
      rw [drainOid_of_some hins] at hrest ⊢
      dsimp only at hrest
      omega

theorem drainL1_taken {n : ℕ} (hn : n ≤ u.l1Size) :
    (u.drainL1 n).l1Size + u.unusedMaps ≤ u.l1Size + (u.drainL1 n).unusedMaps ∧
      (u.drainL1 n).l1Size + min n u.unusedMaps ≤ u.l1Size := by
  obtain ⟨l, hvalid, hnew, heq⟩ := u.drainL1_eq n
  have hfirst : l.firstUnused = max 1 u.l2.firstUnused := by
    by_cases hv : u.l2.valid
    · rw [hvalid hv, max_eq_right (Nat.one_le_iff_ne_zero.mpr hv)]
    · rw [hnew hv, not_not.mp hv]
      rfl
  have htaken := drainLoop_taken n (u.l1Size - n) { u with l2 := l, l1Size := u.l1Size - n }
  have hsize := drainLoop_size_le n (u.l1Size - n) { u with l2 := l, l1Size := u.l1Size - n }
  have hunused := drainLoop_unused n (u.l1Size - n) { u with l2 := l, l1Size := u.l1Size - n }
  dsimp only at htaken hsize hunused
  rw [hfirst] at htaken hunused
  rw [unusedMaps_eq, unusedMaps_eq, heq]
  omega

/-- With enough unused bitmaps, a cache is drained completely. -/
theorem drainCache_taken (h : u.l1Size ≤ L1_CAPACITY) (hn : tc.nentries ≤ CACHE_N)
    (hroom : CACHE_N ≤ u.unusedMaps) :
    (u.drainCache tc 0).2.1.nentries = 0 ∧ (u.drainCache tc 0).1.l1Size ≤ L1_CAPACITY ∧
      (u.drainCache tc 0).1.l1Size + u.unusedMaps ≤
        u.l1Size + tc.nentries + (u.drainCache tc 0).1.unusedMaps := by
  have habsorbs : (u.makeRoom tc.nentries).l1Size + tc.nentries ≤ L1_CAPACITY := by
    refine absorbs_of_unused h hn fun _ => ?_
    rw [unusedMaps_eq] at hroom
    have hpos : 0 < CACHE_N := by decide
    omega
  have htaken : (u.makeRoom tc.nentries).l1Size + u.unusedMaps ≤
      u.l1Size + (u.makeRoom tc.nentries).unusedMaps := by
    rw [makeRoom_eq h hn]
    split
    next hc =>
      refine (drainL1_taken ?_).1
      rw [CACHE_N] at hn
      rw [L1_CAPACITY] at hc ⊢
      omega
    next => exact le_rfl
  have hsize : (u.drainCache tc 0).1.l1Size = (u.makeRoom tc.nentries).l1Size + tc.nentries := by
    show _ + min tc.nentries (L1_CAPACITY - (u.makeRoom tc.nentries).l1Size) = _
    rw [min_eq_left (by omega)]
  have hmaps : (u.drainCache tc 0).1.unusedMaps = (u.makeRoom tc.nentries).unusedMaps := rfl
  rw [drainCache_nentries u hn, hsize, hmaps]
  omega

/-- Then the filter of `_scavenge_l3` accepts every word, and the word fits. -/
theorem absorbWord_taken (h : u.l1Size ≤ L1_CAPACITY) (hn : tc.nentries ≤ CACHE_N)
    (hroom : u.l1Size + tc.nentries + CACHE_N ≤ u.unusedMaps) :
    ∃ u' tc', absorbWord u tc = (u', tc', true) ∧ tc'.nentries + 64 ≤ CACHE_N ∧
      u'.l1Size + tc'.nentries + u.unusedMaps ≤ u.l1Size + tc.nentries + u'.unusedMaps := by
  have hspace : tc.spaceRemaining = CACHE_N - tc.nentries := usub_eq hn (by norm_num [CACHE_N])
  have hcache : 64 ≤ CACHE_N ∧ CACHE_N ≤ L1_CAPACITY / 2 := by decide
  rw [absorbWord]
  by_cases hfew : tc.spaceRemaining < 64
  · obtain ⟨hempty, hle, htaken⟩ := drainCache_taken h hn (by omega)
    rw [if_pos hfew]
    dsimp only
    by_cases hl1 : (u.drainCache tc 0).1.l1Size + CACHE_N ≤ L1_CAPACITY
    · rw [if_pos hl1]
      exact ⟨_, _, rfl, by omega, by omega⟩
    · obtain ⟨htaken', hmoved⟩ := drainL1_taken (u := (u.drainCache tc 0).1) (n := L1_CAPACITY / 2)
        (by omega)
      rw [if_neg hl1, decide_eq_true (by omega)]
      exact ⟨_, _, rfl, by omega, by omega⟩
  · rw [if_neg hfew]
    exact ⟨u, tc, rfl, by omega, le_rfl⟩

end Room

section Scavenge

variable {tc : ThreadCache}

/-- Nothing is to be moved: there is no L3, no OIDs are wanted, or all words are empty. -/
def NothingToMove (a : AllocatorL3) (n : ℕ) : Prop :=
  ¬ a.l3.valid ∨ toInt32 n ≤ 0 ∨ a.l3.oids = 0

/-- There is an unused bitmap for every OID of L1, of a staging cache with `k` OIDs and of L3,
and for another cache. -/
def Roomy (a : AllocatorL3) (k : ℕ) : Prop :=
  a.upper.l1Size + k + a.l3.oids.card + CACHE_N ≤ a.upper.unusedMaps

/-- OIDs go from L3 to the staging cache, and from there to L1 and L2. -/
structure Staged (a : AllocatorL3) (tc : ThreadCache) (a' : AllocatorL3) (tc' : ThreadCache) :
    Prop where
  inv : Inv a' tc'.oids
  l3 : a'.l3.Inv
  nentries : tc'.nentries ≤ CACHE_N
  oids : a'.oids + tc'.oids = a.oids + tc.oids
  hiwater : a'.upper.hiwaterMark = a.upper.hiwaterMark
  capacity : a'.l3.capacity = a.l3.capacity
  l3_le : a'.l3.oids ≤ a.l3.oids

theorem Staged.trans {a₁ a₂ : AllocatorL3} {tc₁ tc₂ : ThreadCache} (h₁ : Staged a tc a₁ tc₁)
    (h₂ : Staged a₁ tc₁ a₂ tc₂) : Staged a tc a₂ tc₂ :=
  ⟨h₂.inv, h₂.l3, h₂.nentries, h₂.oids.trans h₁.oids, h₂.hiwater.trans h₁.hiwater,
    h₂.capacity.trans h₁.capacity, h₂.l3_le.trans h₁.l3_le⟩

/-- OIDs move between the staging cache, L1 and L2. -/
theorem Inv.of_upper (h : Inv a staged) {u : Allocator} {staged' : Multiset ℕ} (hu : u.Inv)
    (hnarrow : u.Narrow) (hoids : staged' + u.freeOids = staged + a.upper.freeOids)
    (hhi : u.hiwaterMark = a.upper.hiwaterMark) :
    Inv ⟨u, a.l3⟩ staged' ∧ oids ⟨u, a.l3⟩ + staged' = a.oids + staged := by
  have hsame : oids ⟨u, a.l3⟩ + staged' = a.oids + staged := by
    calc u.freeOids + a.l3.oids + staged' = staged' + u.freeOids + a.l3.oids := by abel
      _ = a.oids + staged := by
        rw [hoids, oids]
        abel
  exact ⟨h.of_le hu h.shape h.stored hnarrow hsame.le hhi, hsame⟩

/-- The filter of `_scavenge_l3` drains the staging cache. -/
theorem Inv.absorbWord_spec (h : Inv a tc.oids) (hn : tc.nentries ≤ CACHE_N) :
    ∃ u tc' b, absorbWord a.upper tc = (u, tc', b) ∧ Inv ⟨u, a.l3⟩ tc'.oids ∧
      oids ⟨u, a.l3⟩ + tc'.oids = a.oids + tc.oids ∧
      u.hiwaterMark = a.upper.hiwaterMark ∧ tc'.nentries ≤ CACHE_N := by
  have hfree : ∀ {b : AllocatorL3} {st : Multiset ℕ}, Inv b st →
      (∀ x ∈ b.upper.freeOids, x < 2 ^ 32) ∧ b.upper.freeOids.Nodup := by
    intro b st hb
    have hle : b.upper.freeOids ≤ b.oids + st :=
      (Multiset.le_add_right _ _).trans (Multiset.le_add_right _ _)
    exact ⟨fun x hx => (hb.lt x (Multiset.mem_of_le hle hx)).trans hb.upper.hiwater_lt,
      Multiset.nodup_of_le hle hb.nodup⟩
  rw [absorbWord]
  by_cases hspace : tc.spaceRemaining < 64
  · rw [if_pos hspace]
    dsimp only
    obtain ⟨hinv, hoids, hhi, hn'⟩ :=
      h.upper.drainCache_spec hn (hfree h).1 (hfree h).2 (Nat.zero_le _)
    obtain ⟨hstaged, hsame⟩ := h.of_upper hinv (h.narrow.drainCache tc 0) hoids hhi
    by_cases hl1 : (a.upper.drainCache tc 0).1.l1Size + CACHE_N ≤ L1_CAPACITY
    · rw [if_pos hl1]
      exact ⟨_, _, _, rfl, hstaged, hsame, hhi, hn'.trans hn⟩
    · rw [if_neg hl1]
      have hhalf : L1_CAPACITY / 2 ≤ (a.upper.drainCache tc 0).1.l1Size := by
        rw [CACHE_N, L1_CAPACITY] at hl1
        rw [L1_CAPACITY]
        omega
      obtain ⟨hinv₂, hoids₂, hhi₂⟩ :=
        hinv.drainL1_spec hhalf (hfree hstaged).1 (hfree hstaged).2
      obtain ⟨hstaged₂, hsame₂⟩ := hstaged.of_upper hinv₂ (hstaged.narrow.drainL1 _)
        (congrArg ((a.upper.drainCache tc 0).2.1.oids + ·) hoids₂) hhi₂
      exact ⟨_, _, _, rfl, hstaged₂, hsame₂.trans hsame, hhi₂.trans hhi, hn'.trans hn⟩
  · rw [if_neg hspace]
    exact ⟨_, _, _, rfl, h, rfl, rfl, hn⟩

/-- Where the scan hand goes. -/
theorem next_lt {hand capacity : ℕ} (h : hand < capacity) :
    (if capacity ≤ hand + 1 then 0 else hand + 1) < capacity := by
  split <;> omega

theorem oids_setHand (u : Allocator) (l : L3) (hand : ℕ) :
    oids ⟨u, { l with scanHand := hand }⟩ = oids ⟨u, l⟩ := by
  simp only [oids, L3.oids]
  rfl

/-- A round of `_scavenge_l3`. -/
theorem Inv.scavengeWord_spec (h : Inv a tc.oids) (hl3 : a.l3.Inv)
    (hhand : a.l3.scanHand < a.l3.capacity) (hn : tc.nentries ≤ CACHE_N) (target : ℤ) :
    a.scavengeWord tc target = .error .cacheOverrun ∧ a.l3.words a.l3.scanHand ≠ ∅ ∧
        ¬ a.Roomy tc.nentries ∨
      ∃ a' tc' left, a.scavengeWord tc target = .ok (a', tc', left) ∧ Staged a tc a' tc' ∧
        a'.l3.scanHand = (if a.l3.capacity ≤ a.l3.scanHand + 1 then 0 else a.l3.scanHand + 1) ∧
        (a.l3.words a.l3.scanHand = ∅ → tc' = tc ∧ left = target ∧ a'.l3.words = a.l3.words) ∧
        (a.Roomy tc.nentries → a'.Roomy tc'.nentries ∧
          (a.l3.words a.l3.scanHand ≠ ∅ → tc'.nentries ≠ 0)) := by
  have hnext := next_lt hhand
  rw [scavengeWord]
  dsimp only
  rw [if_pos hhand]
  set next := if a.l3.capacity ≤ a.l3.scanHand + 1 then 0 else a.l3.scanHand + 1
  -- only the scan hand moves
  have hmove : ({ a.l3 with scanHand := next } : L3).Inv :=
    ⟨⟨hl3.capacity_lt, hl3.bits⟩, fun _ => hnext, hl3.loose⟩
  have hstored : ({ a.l3 with scanHand := next } : L3).Stored := h.stored.congr rfl rfl
  by_cases hword : a.l3.words a.l3.scanHand = ∅
  · rw [if_pos hword]
    have hoids : oids ⟨a.upper, { a.l3 with scanHand := next }⟩ + tc.oids = a.oids + tc.oids := by
      rw [oids_setHand]
    exact .inr ⟨_, _, _, rfl, ⟨h.of_le h.upper hmove.toShape hstored h.narrow hoids.le rfl, hmove,
      hn, hoids, rfl, rfl, le_rfl⟩, rfl, fun _ => ⟨rfl, rfl, rfl⟩,
      fun hroom => ⟨hroom, fun hne => absurd hword hne⟩⟩
  rw [if_neg hword]
  obtain ⟨u, tc₁, b, heq, hinv, hsame, hhi, hn₁⟩ := h.absorbWord_spec hn
  have hroomy : a.Roomy tc.nentries → b = true ∧ tc₁.nentries + 64 ≤ CACHE_N ∧
      u.l1Size + tc₁.nentries + a.l3.oids.card + CACHE_N ≤ u.unusedMaps := by
    intro hroom
    rw [Roomy] at hroom
    obtain ⟨u', tc', heq', hfit, htaken⟩ := absorbWord_taken h.upper.l1_le hn (by omega)
    rw [heq] at heq'
    cases heq'
    exact ⟨rfl, hfit, by omega⟩
  have hcard := hl3.toShape.card_word_le hhand
  rw [heq]
  dsimp only
  by_cases hb : b = true
  · rw [if_pos hb]
    by_cases hfit : tc₁.nentries + (a.l3.words a.l3.scanHand).card ≤ CACHE_N
    · rw [if_pos hfit]
      obtain ⟨hcap, -, hhand', -, hstore⟩ := a.l3.takeWord_fields next
      have hl3' := hl3.takeWord hhand h.l3_card_lt hnext
      have hoids := L3.takeWord_oids hhand next
      have hlen : (tc₁.append (((a.l3.words a.l3.scanHand).sort (· ≤ ·)).map
          (a.l3.scanHand * 64 + ·))).nentries =
          tc₁.nentries + (a.l3.words a.l3.scanHand).card := by
        rw [ThreadCache.append, List.length_map, Finset.length_sort]
      have htotal : oids ⟨u, a.l3.takeWord next⟩ + (tc₁.append
          (((a.l3.words a.l3.scanHand).sort (· ≤ ·)).map (a.l3.scanHand * 64 + ·))).oids =
          a.oids + tc.oids := by
        rw [ThreadCache.oids_append, L3.coe_sort_map, ← hsame, oids, oids, ← hoids]
        abel
      refine .inr ⟨_, _, _, rfl, ⟨h.of_le hinv.upper hl3'.toShape (h.stored.congr hcap hstore)
        hinv.narrow htotal.le hhi, hl3', hlen.trans_le hfit, htotal, hhi, hcap, ?_⟩, hhand',
        fun hempty => absurd hempty hword, fun hroom => ?_⟩
      · rw [← hoids]
        exact Multiset.le_add_right _ _
      · have hsum := congrArg Multiset.card hoids
        have hpos := Finset.card_pos.mpr (Finset.nonempty_iff_ne_empty.mpr hword)
        obtain ⟨-, -, hmaps⟩ := hroomy hroom
        rw [Multiset.card_add, L3.card_wordOids] at hsum
        rw [Roomy, hlen]
        dsimp only
        exact ⟨by omega, fun _ => by omega⟩
    · rw [if_neg hfit]
      refine .inl ⟨rfl, hword, fun hroom => hfit ?_⟩
      have := (hroomy hroom).2.1
      omega
  · rw [if_neg hb]
    have hoids : oids ⟨u, { a.l3 with scanHand := next }⟩ + tc₁.oids = a.oids + tc.oids := by
      rw [oids_setHand, hsame]
    exact .inr ⟨_, _, _, rfl, ⟨h.of_le hinv.upper hmove.toShape hstored hinv.narrow hoids.le hhi,
      hmove, hn₁, hoids, hhi, rfl, le_rfl⟩, rfl, fun hempty => absurd hempty hword,
      fun hroom => absurd (hroomy hroom).1 hb⟩

/-- The words that the loop of `_scavenge_l3` has not seen yet. -/
def Ahead (sentinel hand i : ℕ) : Prop :=
  if hand < sentinel then hand ≤ i ∧ i < sentinel else hand ≤ i ∨ i < sentinel

/-- The loop of `_scavenge_l3` sees each word once, so it ends at the word that it began
with.  The number of words left is how far away that word is. -/
theorem Inv.scavengeWords_spec {sentinel : ℕ} : ∀ (n : ℕ) {a : AllocatorL3} {tc : ThreadCache}
    (target : ℤ), Inv a tc.oids → a.l3.Inv → a.l3.scanHand < a.l3.capacity →
    tc.nentries ≤ CACHE_N → sentinel < a.l3.capacity →
    (a.l3.scanHand < sentinel → a.l3.scanHand + n = sentinel) →
    (sentinel ≤ a.l3.scanHand → a.l3.scanHand + n = sentinel + a.l3.capacity) →
    scavengeWords sentinel n a tc target = .error .cacheOverrun ∧ a.l3.oids ≠ 0 ∧
        ¬ a.Roomy tc.nentries ∨
      ∃ a' tc' left, scavengeWords sentinel n a tc target = .ok (a', tc', left) ∧
        Staged a tc a' tc' ∧ (a.l3.oids = 0 → tc' = tc) ∧
        (a.Roomy tc.nentries → tc'.nentries = 0 → tc.nentries = 0 ∧
          (0 < target → ∀ i < a.l3.capacity, Ahead sentinel a.l3.scanHand i →
            a.l3.words i = ∅)) := by
  intro n
  induction n with
  | zero =>
    intro a tc target _ _ hhand _ hs hlow hhigh
    rcases Nat.lt_or_ge a.l3.scanHand sentinel with hlt | hge
    · exact absurd (hlow hlt) (by omega)
    · exact absurd (hhigh hge) (by omega)
  | succ n ih =>
    intro a tc target h hl3 hhand hn hs hlow hhigh
    rw [scavengeWords]
    by_cases ht : 0 < target
    swap
    · rw [if_neg ht]
      exact .inr ⟨a, tc, target, rfl, ⟨h, hl3, hn, rfl, rfl, rfl, le_rfl⟩, fun _ => rfl,
        fun _ h0 => ⟨h0, fun hpos => absurd hpos ht⟩⟩
    rw [if_pos ht]
    have hnone : a.l3.oids = 0 → a.l3.words a.l3.scanHand = ∅ := fun h0 =>
      L3.words_eq_empty h0 hhand
    obtain ⟨herr, hword, hroom⟩ | ⟨a₁, tc₁, left₁, heq, hstaged, hnext, hempty, hroomy⟩ :=
      h.scavengeWord_spec hl3 hhand hn target
    · rw [herr]
      exact .inl ⟨rfl, fun h0 => hword (hnone h0), hroom⟩
    rw [heq]
    simp only [Except.bind]
    have hcap := hstaged.capacity
    -- a round that leaves the staging cache empty has seen an empty word
    have hseen : a.Roomy tc.nentries → tc₁.nentries = 0 → a.l3.words a.l3.scanHand = ∅ :=
      fun hr h0 => not_not.mp fun hne => (hroomy hr).2 hne h0
    by_cases hend : a₁.l3.scanHand = sentinel
    · rw [if_pos hend]
      refine .inr ⟨a₁, tc₁, left₁, rfl, hstaged, fun h0 => (hempty (hnone h0)).1, fun hr h0 => ?_⟩
      have hword := hseen hr h0
      rw [(hempty hword).1] at h0
      refine ⟨h0, fun _ i hi hahead => ?_⟩
      have hi : i = a.l3.scanHand := by
        rw [Ahead] at hahead
        split at hahead <;> split at hnext <;> omega
      rw [hi, hword]
    rw [if_neg hend]
    have hlow' : a₁.l3.scanHand < sentinel → a₁.l3.scanHand + n = sentinel := by
      split at hnext <;> omega
    have hhigh' : sentinel ≤ a₁.l3.scanHand → a₁.l3.scanHand + n = sentinel + a₁.l3.capacity := by
      split at hnext <;> omega
    obtain ⟨herr, hne, hroom⟩ | ⟨a₂, tc₂, left₂, heq₂, hstaged₂, hsame, hrest⟩ :=
      ih left₁ hstaged.inv hstaged.l3 (by rw [hnext, hcap]; exact next_lt hhand) hstaged.nentries
        (by rwa [hcap]) hlow' hhigh'
    · exact .inl ⟨herr, fun h0 => hne (Multiset.le_zero.mp (h0 ▸ hstaged.l3_le)),
        fun hr => hroom (hroomy hr).1⟩
    · refine .inr ⟨a₂, tc₂, left₂, heq₂, hstaged.trans hstaged₂, fun h0 => ?_, fun hr h0 => ?_⟩
      · rw [hsame (Multiset.le_zero.mp (h0 ▸ hstaged.l3_le)), (hempty (hnone h0)).1]
      · obtain ⟨h₁, hwords⟩ := hrest (hroomy hr).1 h0
        have hword := hseen hr h₁
        obtain ⟨htc, hleft, hsamewords⟩ := hempty hword
        rw [htc] at h₁
        refine ⟨h₁, fun _ i hi hahead => ?_⟩
        by_cases hi' : i = a.l3.scanHand
        · rw [hi', hword]
        rw [← hsamewords]
        refine hwords (hleft ▸ ht) i (hcap ▸ hi) ?_
        rw [Ahead] at hahead ⊢
        split at hahead <;> split at hnext <;> split <;> omega

/-- `_scavenge_l3` conserves OIDs, together with its staging cache.  That is empty at the end
if there is nothing to move, and only then if all words can be moved. -/
theorem Inv.scavengeL3_spec (h : Inv a 0) (hl3 : a.l3.Inv) (n : ℕ) :
    a.scavengeL3 n = .error .cacheOverrun ∧ ¬ a.NothingToMove n ∧ ¬ a.Roomy 0 ∨
      ∃ a' tc left, a.scavengeL3 n = .ok (a', tc, left) ∧ Staged a ⟨0, fun _ => 0⟩ a' tc ∧
        (a.NothingToMove n → tc.nentries = 0) ∧
        (a.Roomy 0 → tc.nentries = 0 → a.NothingToMove n) := by
  have h₀ : Inv a (ThreadCache.oids ⟨0, fun _ => 0⟩) := h
  have hrefl : Staged a ⟨0, fun _ => 0⟩ a ⟨0, fun _ => 0⟩ :=
    ⟨h₀, hl3, Nat.zero_le _, rfl, rfl, rfl, le_rfl⟩
  rw [scavengeL3]
  by_cases hv : a.l3.valid
  swap
  · rw [if_neg hv]
    exact .inr ⟨a, _, 0, rfl, hrefl, fun _ => rfl, fun _ _ => .inl hv⟩
  rw [if_pos hv]
  by_cases ht : 0 < toInt32 n
  swap
  · obtain ⟨k, hk⟩ := Nat.exists_eq_succ_of_ne_zero hv
    rw [hk, scavengeWords, if_neg ht]
    exact .inr ⟨a, _, _, rfl, hrefl, fun _ => rfl, fun _ _ => .inr (.inl (not_lt.mp ht))⟩
  have hhand := hl3.hand_lt hv
  have hiff : a.NothingToMove n ↔ a.l3.oids = 0 :=
    ⟨fun hno => (hno.resolve_left (not_not.mpr hv)).resolve_left ht.not_ge,
      fun h0 => .inr (.inr h0)⟩
  obtain ⟨herr, hne, hroom⟩ | ⟨a', tc, left, heq, hstaged, hsame, hrest⟩ :=
    Inv.scavengeWords_spec a.l3.capacity (toInt32 n) h₀ hl3 hhand (Nat.zero_le _) hhand
      (fun hlt => absurd hlt (lt_irrefl _)) (fun _ => rfl)
  · exact .inl ⟨herr, mt hiff.mp hne, hroom⟩
  · refine .inr ⟨a', tc, left, heq, hstaged, fun hno => ?_, fun hroom h0 => hiff.mpr ?_⟩
    · rw [hsame (hiff.mp hno)]
    · refine Finset.sum_eq_zero fun i hi => ?_
      have hempty := (hrest hroom h0).2 ht i (Finset.mem_range.mp hi) (by
        rw [Ahead, if_neg (lt_irrefl _)]
        exact le_or_gt _ _)
      rw [L3.wordOids, hempty]
      rfl

end Scavenge

section Fill

variable {tc : ThreadCache}

/-- `fill_cache` gets to an L3: L1 and the full bitsets do not have enough OIDs, scavenging is
worthwhile, and L2 does not have enough loose OIDs for it. -/
def ReachesL3 (a : AllocatorL3) (tc : ThreadCache) : Prop :=
  a.upper.l1Size + a.upper.fullCount < min 64 (110 - tc.nentries) ∧
    a.upper.wantsScavenge a.l3.looseOids = true ∧ ¬ a.upper.Scavengeable ∧ a.l3.valid ∧
    a.l3.looseOids ≠ 0

/-- `fill_cache` returns, for a cache with room, and leaves L3 alone. -/
theorem fillCache_spec (h : a.upper.Inv)
    (hr : a.upper.l1Size < min 64 (110 - tc.nentries) → a.upper.Readable mem)
    (hn : tc.nentries < 110) (hl3 : ¬ a.ReachesL3 tc) :
    ∃ u tc' full, a.fillCache mem tc = some (⟨u, a.l3⟩, tc', full) ∧
      a.upper.FillResult mem a.l3.looseOids (min 64 (110 - tc.nentries)) tc u tc' full := by
  have hrest : a.upper.l1Size + a.upper.fullCount < min 64 (110 - tc.nentries) →
      a.upper.wantsScavenge a.l3.looseOids = true →
      ∀ u left, (a.upper.Scavengeable → left ≤ 0) → scavengeRest u a.l3 left = some (u, a.l3) := by
    intro hl1 hwants u left hleft
    rw [scavengeRest]
    by_cases hc : 0 < left ∧ a.l3.looseOids ≠ 0
    · have hv : ¬ a.l3.valid := fun hv =>
        hl3 ⟨hl1, hwants, fun hs => absurd (hleft hs) hc.1.not_ge, hv, hc.2⟩
      rw [if_pos hc, scavengeL3, if_neg hv]
      rfl
    · rw [if_neg hc]
  obtain ⟨u, tc', full, heq, hres⟩ := h.fillLoop_spec L3.looseOids scavengeRest a.l3 tc hr
    (by omega) (min_le_left _ _) hrest FILL_TARGET
  refine ⟨u, tc', full, ?_, hres⟩
  rw [fillCache, Allocator.fillTarget_eq hn.le, heq]
  rfl

end Fill

end AllocatorL3

namespace L3System

open AllocatorL3

variable {ι : Type*} [Fintype ι] {s s' : L3System ι}

/-- The free OIDs: in caches, L1, L2 and L3. -/
def free (s : L3System ι) : Multiset ℕ := ∑ c, (s.sys.cache c).oids + s.alloc.oids

/-- The partition, where the OIDs in L3 count as held, and the bookkeeping of L3. -/
structure Inv (s : L3System ι) : Prop where
  sys : OidSystem.Inv { s.sys with held := s.sys.held + s.l3.oids }
  l3 : s.l3.Inv
  stored : s.l3.Stored
  narrow : s.sys.alloc.Narrow

/-- `_drain_l2` can read L2 and resize L3, and keeps the words with OIDs and the scan hand;
`_scavenge_l3` finds nothing to move; `fill_cache` does not get to it. -/
def Ok (s : L3System ι) : L3Act ι → Prop
  | .drainL2 n mem => CanDrain mem s.alloc n ∧ s.alloc.KeepsWords n ∧ s.alloc.KeepsHand n
  | .scavengeL3 n => s.alloc.NothingToMove n
  | .fill c mem =>
    (s.sys.alloc.l1Size < min 64 (110 - (s.sys.cache c).nentries) → s.sys.alloc.Readable mem) ∧
      ¬ s.alloc.ReachesL3 (s.sys.cache c)

theorem Inv.partition (h : Inv s) :
    s.sys.held + s.free = Multiset.range s.sys.alloc.hiwaterMark := by
  rw [← h.sys.partition, OidSystem.places, free, AllocatorL3.oids]
  show s.sys.held + (∑ c, (s.sys.cache c).oids + (s.sys.alloc.freeOids + s.l3.oids)) =
    s.sys.held + s.l3.oids + ∑ c, (s.sys.cache c).oids + s.sys.alloc.freeOids
  abel

theorem Inv.alloc (h : Inv s) : AllocatorL3.Inv s.alloc 0 := by
  have hle : s.alloc.oids + 0 ≤ Multiset.range s.sys.alloc.hiwaterMark := by
    rw [add_zero, ← h.partition]
    exact (Multiset.le_add_left _ _).trans (Multiset.le_add_left _ _)
  exact ⟨h.sys.alloc, h.l3.toShape, h.stored, h.narrow,
    Multiset.nodup_of_le hle (Multiset.nodup_range _),
    fun x hx => Multiset.mem_range.mp (Multiset.mem_of_le hle hx)⟩

theorem free_setAlloc (s : L3System ι) (a : AllocatorL3) :
    (s.setAlloc a).free = ∑ c, (s.sys.cache c).oids + a.oids := rfl

theorem free_setAlloc_eq_iff (s : L3System ι) (a : AllocatorL3) :
    (s.setAlloc a).free = s.free ↔ a.oids = s.alloc.oids := by
  rw [free_setAlloc, free, add_right_inj]

/-- OIDs move between L1, L2 and L3. -/
theorem Inv.setAlloc (h : Inv s) {a : AllocatorL3} {staged : Multiset ℕ} (ha : a.Inv staged)
    (hl3 : a.l3.Inv) (hoids : a.oids = s.alloc.oids)
    (hhi : a.upper.hiwaterMark = s.sys.alloc.hiwaterMark) : Inv (s.setAlloc a) := by
  refine ⟨⟨ha.upper, h.sys.caches, h.sys.incomplete, ?_⟩, hl3, ha.stored, ha.narrow⟩
  show s.sys.held + a.l3.oids + ∑ c, (s.sys.cache c).oids + a.upper.freeOids =
    Multiset.range a.upper.hiwaterMark
  rw [hhi, ← h.partition, free, ← hoids, AllocatorL3.oids]
  abel

theorem Inv.drainL2 (h : Inv s) {n : ℕ} {mem : Memory} (hc : CanDrain mem s.alloc n) :
    ∃ a left, s.alloc.drainL2 mem n = .ok (a, left) ∧
      ((s.setAlloc a).free = s.free ↔ s.alloc.KeepsWords n) ∧
      (s.alloc.KeepsWords n → s.alloc.KeepsHand n → Inv (s.setAlloc a)) := by
  obtain ⟨a, left, heq, hinv, hhi, hiff, hl3⟩ := h.alloc.drainL2_spec hc
  refine ⟨a, left, heq, (s.free_setAlloc_eq_iff a).trans hiff, fun hw hh => ?_⟩
  exact h.setAlloc hinv (hl3 h.l3 hw hh) (hiff.mpr hw) hhi

/-- The OIDs in the staging cache are lost. -/
theorem Inv.scavengeL3 (h : Inv s) (n : ℕ) :
    s.alloc.scavengeL3 n = .error .cacheOverrun ∧ ¬ s.alloc.NothingToMove n ∧ ¬ s.alloc.Roomy 0 ∨
      ∃ a tc left, s.alloc.scavengeL3 n = .ok (a, tc, left) ∧
        (s.setAlloc a).free + tc.oids = s.free ∧
        (s.alloc.NothingToMove n → (s.setAlloc a).free = s.free ∧ Inv (s.setAlloc a)) ∧
        (s.alloc.Roomy 0 → (s.setAlloc a).free = s.free → s.alloc.NothingToMove n) := by
  obtain herr | ⟨a, tc, left, heq, hstaged, hempty, hroomy⟩ := h.alloc.scavengeL3_spec h.l3 n
  · exact .inl herr
  have hoids : a.oids + tc.oids = s.alloc.oids := hstaged.oids.trans (add_zero _)
  have hiff : a.oids = s.alloc.oids ↔ tc.nentries = 0 := by
    rw [← hoids, left_eq_add, ← Multiset.card_eq_zero, ThreadCache.oids, Segment.card_seg]
  refine .inr ⟨a, tc, left, heq, ?_, fun hno => ?_, fun hroom hsame => ?_⟩
  · rw [free_setAlloc, free, add_assoc, hoids]
  · have hsame := hiff.mpr (hempty hno)
    exact ⟨(s.free_setAlloc_eq_iff a).mpr hsame,
      h.setAlloc hstaged.inv hstaged.l3 hsame hstaged.hiwater⟩
  · exact hroomy hroom (hiff.mp ((s.free_setAlloc_eq_iff a).mp hsame))

variable [DecidableEq ι]

theorem Inv.fill (h : Inv s) {c : ι} {mem : Memory}
    (hc : (s.sys.cache c).nentries = 0 ∨ s.sys.incomplete c) (hok : s.Ok (.fill c mem)) :
    ∃ s', s.step (.fill c mem) = some s' ∧ Inv s' := by
  have hroom := h.sys.fill_room hc
  obtain ⟨u, tc', full, heq, hres⟩ := AllocatorL3.fillCache_spec h.sys.alloc hok.1 hroom hok.2
  obtain ⟨hle, hshort⟩ := hres.nentries hroom
  refine ⟨⟨{ s.sys.setCache c tc' (!full) with alloc := u }, s.l3⟩, ?_,
    ⟨?_, h.l3, h.stored, fun b => ?_⟩⟩
  · rw [step, if_pos hc, heq]
    rfl
  · refine h.sys.move hres.filled.inv (hle.trans (by norm_num [CACHE_N])) (fun hb => hshort ?_) ?_
    · simpa using hb
    · have hoids : tc'.oids + u.freeOids + Multiset.range s.sys.alloc.hiwaterMark =
          (s.sys.cache c).oids + s.sys.alloc.freeOids + Multiset.range u.hiwaterMark :=
        hres.filled.oids
      calc s.sys.held + s.l3.oids + tc'.oids + u.freeOids +
            Multiset.range s.sys.alloc.hiwaterMark
          = s.sys.held + s.l3.oids +
              (tc'.oids + u.freeOids + Multiset.range s.sys.alloc.hiwaterMark) := by abel
        _ = s.sys.held + s.l3.oids + (s.sys.cache c).oids + s.sys.alloc.freeOids +
              Multiset.range u.hiwaterMark := by
          rw [hoids]
          abel
  · show (u.l2.maps b).Narrow
    rw [hres.filled.maps]
    exact h.narrow b

theorem Inv.step (h : Inv s) {x : L3Act ι} (hok : s.Ok x) (hs : s.step x = some s') : Inv s' := by
  cases x with
  | drainL2 n mem =>
    obtain ⟨hcan, hwords, hhand⟩ := hok
    obtain ⟨a, left, heq, -, hinv⟩ := h.drainL2 hcan
    rw [L3System.step, heq] at hs
    cases hs
    exact hinv hwords hhand
  | scavengeL3 n =>
    obtain ⟨-, hmove, -⟩ | ⟨a, tc, left, heq, -, hinv, -⟩ := h.scavengeL3 n
    · exact absurd hok hmove
    rw [L3System.step, heq] at hs
    cases hs
    exact (hinv hok).2
  | fill c mem =>
    obtain ⟨hc, -⟩ := Option.ite_none_right_eq_some.mp hs
    obtain ⟨s₁, hs₁, hinv⟩ := h.fill hc hok
    rw [hs] at hs₁
    cases hs₁
    exact hinv

end L3System

end PreemptDB
