/-
Which order a Delivery transaction takes (`tpcc-sequential.cc`).

For every district the transaction scans the new orders of its warehouse from a cursor on and
removes the first one.  The cursor `last_no_o_ids` belongs to the worker: it moves behind the
order as soon as that is found, it stays there if the transaction aborts, and all warehouses
share it.

* `scanFirst` — the scan with `new_order_scan_callback`, over encoded keys;
* `district`, `txnDelivery`, `deliveries` — one district, one attempt, a run of attempts;
* `scanFirst_oldest_iff` — when one scan finds the oldest order;
* `delivery_takes_oldest` — the exact condition in every run.

What becomes of an attempt is a choice for each district; a committed attempt is one in which
no district aborts.
-/
import PreemptDB.KeyCodec
import Mathlib.Data.List.MinMax

namespace PreemptDB

open Function Record ByteOrder

namespace Delivery

/-- `new_order::key` -/
structure Key where
  noWId : BitVec 32
  noDId : BitVec 32
  noOId : BitVec 32
  deriving DecidableEq

def Key.encode (k : Key) : List UInt8 :=
  Record.encodeWrite [.int32 k.noWId, .int32 k.noDId, .int32 k.noOId]

/-- `std::numeric_limits<int32_t>::max()` -/
def int32Max : BitVec 32 := 0x7fffffff

/-- The first of the visible rows from `lo` on and before `hi`. -/
def scanFirst (rows : List Key) (lo hi : List UInt8) : Option Key :=
  (rows.filter fun k => Varstr.ge k.encode lo && Varstr.lt k.encode hi).argmin Key.encode

/-- How far an attempt gets with a district. -/
inductive Outcome
  | scanAborts
  | abortsBeforeRemove
  | abortsAfterRemove
  | proceeds
  deriving DecidableEq

/-- One call of `txn_delivery`: the warehouse that `pick_wh` returns and the rows of `new_order`
that its snapshot sees. -/
structure Attempt where
  warehouse : BitVec 32
  rows : List Key
  outcome : ℕ → Outcome

/-- A district in which a row was removed, or which was skipped. -/
structure Handled where
  warehouse : BitVec 32
  district : ℕ
  rows : List Key
  /-- What the worker's scans had found before, the last first. -/
  finds : List (ℕ × BitVec 32)
  removed : Option Key
  deriving DecidableEq

structure Worker where
  lastNoOIds : ℕ → BitVec 32
  finds : List (ℕ × BitVec 32)
  handled : List Handled

/-- The constructor clears the cursors. -/
def newWorker : Worker := ⟨fun _ => 0, [], []⟩

/-- The loop body for a district, and whether the loop goes on. -/
def district (a : Attempt) (s : Worker) (d : ℕ) : Worker × Bool :=
  let lo : Key := ⟨a.warehouse, BitVec.ofNat 32 d, s.lastNoOIds (d - 1)⟩
  let hi : Key := ⟨a.warehouse, BitVec.ofNat 32 d, int32Max⟩
  let handled := Handled.mk a.warehouse d a.rows s.finds
  match a.outcome d, scanFirst a.rows lo.encode hi.encode with
  | .scanAborts, _ => (s, false)
  | _, none => ({ s with handled := handled none :: s.handled }, true)
  | outcome, some k =>
    let s := { s with
      lastNoOIds := update s.lastNoOIds (d - 1) (k.noOId + 1)
      finds := (d, k.noOId) :: s.finds }
    match outcome with
    | .abortsBeforeRemove => (s, false)
    | .abortsAfterRemove => ({ s with handled := handled (some k) :: s.handled }, false)
    | _ => ({ s with handled := handled (some k) :: s.handled }, true)

/-- The loop over the districts that are left. -/
def districts (a : Attempt) : List ℕ → Worker → Worker
  | [], s => s
  | d :: ds, s =>
    if (district a s d).2 then districts a ds (district a s d).1 else (district a s d).1

/-- `txn_delivery` -/
def txnDelivery (s : Worker) (a : Attempt) : Worker := districts a (List.range' 1 10) s

/-- A run of attempts, retries among them. -/
def deliveries (as : List Attempt) : Worker := as.foldl txnDelivery newWorker

/-- `k` is a row of the warehouse and the district. -/
def Key.Of (w : BitVec 32) (d : ℕ) (k : Key) : Prop := k.noWId = w ∧ k.noDId = BitVec.ofNat 32 d

/-- The row removed is the visible one with the smallest order id, and without one no row of the
district is visible. -/
def Oldest (w : BitVec 32) (d : ℕ) (rows : List Key) : Option Key → Prop
  | none => ∀ k ∈ rows, ¬ k.Of w d
  | some k => k ∈ rows ∧ k.Of w d ∧ ∀ k' ∈ rows, k'.Of w d → k.noOId.toInt ≤ k'.noOId.toInt

/-- No visible row of the district is below the cursor, and not all are at the upper end. -/
def InReach (w : BitVec 32) (d : ℕ) (rows : List Key) (cursor : BitVec 32) : Prop :=
  (∀ k ∈ rows, k.Of w d → cursor.toInt ≤ k.noOId.toInt) ∧
    ((∀ k ∈ rows, ¬ k.Of w d) ∨ ∃ k ∈ rows, k.Of w d ∧ k.noOId.toInt < int32Max.toInt)

/-- The cursor of a district: behind the order that was found last, in whichever warehouse. -/
def resumeAt (finds : List (ℕ × BitVec 32)) (d : ℕ) : BitVec 32 :=
  match finds.find? (·.1 = d) with
  | none => 0
  | some f => f.2 + 1

section Encoding

/-- The bytes of a field of a key. -/
def word (v : BitVec 32) : List UInt8 := storeWord (bswap32 v)

theorem Key.encode_eq (k : Key) : k.encode = word k.noWId ++ (word k.noDId ++ word k.noOId) := by
  simp [Key.encode, Record.encodeWrite, Field.writeKey, word]

theorem length_word (v w : BitVec 32) : (word v).length = (word w).length := by
  rw [word, word, length_storeWord, length_storeWord]

theorem word_inj {v w : BitVec 32} : word v = word w ↔ v = w := by
  refine ⟨fun h => ?_, congrArg word⟩
  have hr := writeKey_inj (f := .uint32 v) (g := .uint32 w) rfl h
  exact Field.uint32.inj hr

/-- Keys are compared field by field, without a sign. -/
theorem encode_lt_iff (k k' : Key) : k.encode < k'.encode ↔
    k.noWId.toNat < k'.noWId.toNat ∨ k.noWId = k'.noWId ∧
      (k.noDId.toNat < k'.noDId.toNat ∨ k.noDId = k'.noDId ∧
        k.noOId.toNat < k'.noOId.toNat) := by
  rw [k.encode_eq, k'.encode_eq, append_lt_append_iff (length_word _ _),
    append_lt_append_iff (length_word _ _), word_inj, word_inj]
  simp only [word, storeWord_bswap32_lt_iff]

/-- A scan between two order ids of a district meets rows of that district only. -/
theorem mem_range_iff {w d c c' : BitVec 32} {k : Key} :
    (Varstr.ge k.encode (Key.encode ⟨w, d, c⟩) &&
      Varstr.lt k.encode (Key.encode ⟨w, d, c'⟩)) = true ↔
      k.noWId = w ∧ k.noDId = d ∧ c.toNat ≤ k.noOId.toNat ∧ k.noOId.toNat < c'.toNat := by
  rw [Bool.and_eq_true, Varstr.ge_iff, Varstr.lt_iff, ← not_lt, encode_lt_iff, encode_lt_iff,
    ← BitVec.toNat_inj, ← BitVec.toNat_inj]
  dsimp only
  omega

end Encoding

section Scan

variable {w : BitVec 32} {d : ℕ} {rows : List Key} {c : BitVec 32}

/-- Order ids from a cursor that is not negative up to the largest one. -/
theorem toNat_range_iff (hc : c.toNat < 2 ^ 31) (o : BitVec 32) :
    (c.toNat ≤ o.toNat ∧ o.toNat < int32Max.toNat) ↔
      (c.toInt ≤ o.toInt ∧ o.toInt < int32Max.toInt) := by
  have hmax : int32Max.toNat = 2 ^ 31 - 1 := by decide
  have hmax' : int32Max.toInt = 2 ^ 31 - 1 := by decide
  have ho := o.isLt
  have hcInt := BitVec.toInt_eq_toNat_cond c
  have hoInt := BitVec.toInt_eq_toNat_cond o
  rw [if_pos (by omega)] at hcInt
  rw [hmax, hmax', hcInt]
  split at hoInt <;> omega

/-- What the scan of a district finds is the oldest order if and only if that is in reach. -/
theorem scanFirst_oldest_iff (hc : c.toNat < 2 ^ 31) :
    Oldest w d rows (scanFirst rows (Key.encode ⟨w, BitVec.ofNat 32 d, c⟩)
      (Key.encode ⟨w, BitVec.ofNat 32 d, int32Max⟩)) ↔ InReach w d rows c := by
  have hmem : ∀ k, k ∈ rows.filter (fun k => Varstr.ge k.encode (Key.encode ⟨w, .ofNat 32 d, c⟩) &&
      Varstr.lt k.encode (Key.encode ⟨w, .ofNat 32 d, int32Max⟩)) ↔
      k ∈ rows ∧ k.Of w d ∧ c.toInt ≤ k.noOId.toInt ∧ k.noOId.toInt < int32Max.toInt := by
    intro k
    rw [List.mem_filter, mem_range_iff, toNat_range_iff hc, Key.Of]
    tauto
  cases hscan : scanFirst rows (Key.encode ⟨w, .ofNat 32 d, c⟩)
      (Key.encode ⟨w, .ofNat 32 d, int32Max⟩) with
  | none =>
    rw [scanFirst, List.argmin_eq_none] at hscan
    simp only [hscan, List.not_mem_nil, false_iff] at hmem
    constructor
    · intro hnone
      exact ⟨fun k hk hof => absurd hof (hnone k hk), .inl hnone⟩
    · rintro ⟨hlow, hnone | ⟨k, hk, hof, hlt⟩⟩
      · exact hnone
      · exact absurd ⟨hk, hof, hlow k hk hof, hlt⟩ (hmem k)
  | some m =>
    obtain ⟨hm, hof, hcm, hmax⟩ := (hmem m).mp (List.argmin_mem hscan)
    constructor
    · rintro ⟨-, -, hleast⟩
      exact ⟨fun k hk hk' => hcm.trans (hleast k hk hk'), .inr ⟨m, hm, hof, hmax⟩⟩
    · rintro ⟨hlow, -⟩
      refine ⟨hm, hof, fun k hk hk' => ?_⟩
      rcases lt_or_ge k.noOId.toInt int32Max.toInt with hlt | hge
      · -- `k` is in the range of the scan as well
        have hin := (hmem k).mpr ⟨hk, hk', hlow k hk hk', hlt⟩
        have hle : ¬ k.encode < m.encode := List.not_lt_of_mem_argmin hin hscan
        rw [encode_lt_iff, hof.1, hof.2, hk'.1, hk'.2] at hle
        by_contra hgt
        have hk0 := (toNat_range_iff hc k.noOId).mpr ⟨hlow k hk hk', hlt⟩
        have hm0 := (toNat_range_iff hc m.noOId).mpr ⟨hcm, hmax⟩
        have hmax' : int32Max.toNat = 2 ^ 31 - 1 := by decide
        have hkInt := BitVec.toInt_eq_toNat_cond k.noOId
        have hmInt := BitVec.toInt_eq_toNat_cond m.noOId
        rw [if_pos (by omega)] at hkInt hmInt
        refine hle (.inr ⟨rfl, .inr ⟨rfl, ?_⟩⟩)
        omega
      · exact hmax.le.trans hge

/-- An order that the scan finds has a successor. -/
theorem scanFirst_lt {k : Key} {lo : List UInt8}
    (h : scanFirst rows lo (Key.encode ⟨w, BitVec.ofNat 32 d, int32Max⟩) = some k)
    (hlo : lo = Key.encode ⟨w, BitVec.ofNat 32 d, c⟩) : (k.noOId + 1).toNat < 2 ^ 31 := by
  subst hlo
  have hk := List.mem_filter.mp (List.argmin_mem h)
  have hlt := (mem_range_iff.mp hk.2).2.2.2
  have hmax : int32Max.toNat = 2 ^ 31 - 1 := by decide
  rw [hmax] at hlt
  have hone : (1 : BitVec 32).toNat = 1 := rfl
  rw [BitVec.toNat_add, hone]
  omega

end Scan

/-- The cursors are where the scans of the worker have left them; the districts so far were
handled as the condition says. -/
structure Inv (s : Worker) : Prop where
  cursor : ∀ d, 1 ≤ d → s.lastNoOIds (d - 1) = resumeAt s.finds d
  bound : ∀ i, (s.lastNoOIds i).toNat < 2 ^ 31
  handled : ∀ h ∈ s.handled, Oldest h.warehouse h.district h.rows h.removed ↔
    InReach h.warehouse h.district h.rows (resumeAt h.finds h.district)

section Loop

variable {a : Attempt} {s : Worker} {d : ℕ}

theorem resumeAt_cons_self (finds : List (ℕ × BitVec 32)) (d : ℕ) (o : BitVec 32) :
    resumeAt ((d, o) :: finds) d = o + 1 := by
  simp [resumeAt]

theorem resumeAt_cons_of_ne {finds : List (ℕ × BitVec 32)} {d d' : ℕ} {o : BitVec 32}
    (h : d ≠ d') : resumeAt ((d, o) :: finds) d' = resumeAt finds d' := by
  simp [resumeAt, h]

/-- The cursor moves behind an order that is found, whatever happens to the attempt. -/
theorem Inv.found (hi : Inv s) (hd : 1 ≤ d) {o : BitVec 32} (ho : (o + 1).toNat < 2 ^ 31)
    {handled : List Handled}
    (hhandled : ∀ h ∈ handled, Oldest h.warehouse h.district h.rows h.removed ↔
      InReach h.warehouse h.district h.rows (resumeAt h.finds h.district)) :
    Inv ⟨update s.lastNoOIds (d - 1) (o + 1), (d, o) :: s.finds, handled⟩ := by
  refine ⟨fun d' hd' => ?_, fun i => ?_, hhandled⟩
  · by_cases heq : d = d'
    · subst heq
      rw [resumeAt_cons_self]
      exact update_self ..
    · rw [resumeAt_cons_of_ne heq, ← hi.cursor d' hd']
      exact update_of_ne (by omega) ..
  · by_cases heq : i = d - 1
    · subst heq
      show (update s.lastNoOIds (d - 1) (o + 1) (d - 1)).toNat < 2 ^ 31
      rw [update_self]
      exact ho
    · show (update s.lastNoOIds (d - 1) (o + 1) i).toNat < 2 ^ 31
      rw [update_of_ne heq]
      exact hi.bound i

theorem Inv.district (hi : Inv s) (hd : 1 ≤ d) : Inv (district a s d).1 := by
  -- the district is handled as its scan found it
  have holdest : Oldest a.warehouse d a.rows
      (scanFirst a.rows (Key.encode ⟨a.warehouse, .ofNat 32 d, s.lastNoOIds (d - 1)⟩)
        (Key.encode ⟨a.warehouse, .ofNat 32 d, int32Max⟩)) ↔
      InReach a.warehouse d a.rows (resumeAt s.finds d) := by
    rw [← hi.cursor d hd]
    exact scanFirst_oldest_iff (hi.bound _)
  have hcons : ∀ r, scanFirst a.rows (Key.encode ⟨a.warehouse, .ofNat 32 d, s.lastNoOIds (d - 1)⟩)
      (Key.encode ⟨a.warehouse, .ofNat 32 d, int32Max⟩) = r →
      ∀ h ∈ Handled.mk a.warehouse d a.rows s.finds r :: s.handled,
        Oldest h.warehouse h.district h.rows h.removed ↔
          InReach h.warehouse h.district h.rows (resumeAt h.finds h.district) := by
    rintro r hr h hmem
    rcases List.mem_cons.mp hmem with rfl | hmem
    · rw [← hr]
      exact holdest
    · exact hi.handled h hmem
  unfold Delivery.district
  dsimp only
  split
  next => exact hi
  next hscan _ => exact ⟨hi.cursor, hi.bound, hcons none hscan⟩
  next k hscan _ =>
    have ho := scanFirst_lt hscan rfl
    split
    next => exact hi.found hd ho hi.handled
    next => exact hi.found hd ho (hcons (some k) hscan)
    next => exact hi.found hd ho (hcons (some k) hscan)

theorem Inv.districts {ds : List ℕ} (hds : ∀ d ∈ ds, 1 ≤ d) (hi : Inv s) :
    Inv (districts a ds s) := by
  induction ds generalizing s with
  | nil => exact hi
  | cons d ds ih =>
    have hd := hi.district (a := a) (hds d List.mem_cons_self)
    rw [Delivery.districts]
    split
    · exact ih (fun d' hd' => hds d' (.tail _ hd')) hd
    · exact hd

theorem Inv.txnDelivery (hi : Inv s) : Inv (txnDelivery s a) :=
  hi.districts fun _ hd => (List.mem_range'_1.mp hd).1

theorem inv_deliveries (as : List Attempt) : Inv (deliveries as) := by
  have hrun : ∀ (as : List Attempt) (s : Worker), Inv s →
      Inv (as.foldl Delivery.txnDelivery s) := by
    intro as
    induction as with
    | nil => exact fun s hi => hi
    | cons a as ih => exact fun s hi => ih _ hi.txnDelivery
  refine hrun as newWorker ⟨fun d _ => rfl, fun i => ?_, nofun⟩
  show (0 : BitVec 32).toNat < 2 ^ 31
  decide

end Loop

/-- In every run the row that an attempt removes from a district is its oldest visible one, and a
skipped district has none, if and only if no visible row of the district lies below the cursor
that the worker's earlier scans have left and not all of them at the upper end. -/
theorem delivery_takes_oldest (as : List Attempt) :
    ∀ h ∈ (deliveries as).handled, Oldest h.warehouse h.district h.rows h.removed ↔
      InReach h.warehouse h.district h.rows (resumeAt h.finds h.district) :=
  (inv_deliveries as).handled

/-- Two new orders in the first district of the first warehouse. -/
def twoOrders : List Key := [⟨1, 1, 1⟩, ⟨1, 1, 2⟩]

theorem delivery_takes_oldest_first :
    ∃ h ∈ (deliveries [⟨1, twoOrders, fun _ => .proceeds⟩]).handled,
      h.removed = some ⟨1, 1, 1⟩ ∧ (Oldest h.warehouse h.district h.rows h.removed ↔
        InReach h.warehouse h.district h.rows (resumeAt h.finds h.district)) :=
  ⟨⟨1, 1, twoOrders, [], some ⟨1, 1, 1⟩⟩, by decide +kernel, rfl,
    delivery_takes_oldest [⟨1, twoOrders, fun _ => .proceeds⟩] _ (by decide +kernel)⟩

/-- The first attempt finds order 1 and aborts.  Its retry sees the same rows, and the scan starts
behind order 1. -/
theorem retry_skips_oldest :
    ∃ h ∈ (deliveries [⟨1, twoOrders, fun _ => .abortsBeforeRemove⟩,
      ⟨1, twoOrders, fun _ => .proceeds⟩]).handled,
      h.warehouse = 1 ∧ h.district = 1 ∧ ⟨1, 1, 1⟩ ∈ h.rows ∧ h.removed = some ⟨1, 1, 2⟩ ∧
        ¬ Oldest h.warehouse h.district h.rows h.removed := by
  refine ⟨⟨1, 1, twoOrders, [(1, 1)], some ⟨1, 1, 2⟩⟩, by decide +kernel, rfl, rfl, by decide, rfl,
    ?_⟩
  rintro ⟨-, -, hleast⟩
  exact absurd (hleast ⟨1, 1, 1⟩ (by decide) ⟨rfl, rfl⟩) (by decide)

end Delivery

end PreemptDB
