/-
The third level of the OID allocator (`sm-oid-alloc.cpp`).

L3 is a bitmap over all OIDs, in words of 64 bits.  `_drain_l2` moves OIDs from the bitsets
of L2 to it and makes it larger if need be; `_scavenge_l3` takes OIDs out of it, word by
word, and stages them in a local cache on their way to L1.

* `L3`, `AllocatorL3` — the data, with the array that backs the allocator;
* `L3.init`, `L3.insert` — `init_l3` and `_insert_l3`;
* `AllocatorL3.drainL2` — `_drain_l2`, with its three preferences;
* `AllocatorL3.scavengeL3` — `_scavenge_l3`, with the cache that it leaves behind;
* `AllocatorL3.fillCache` — `fill_cache` with an L3;
* `L3System.step` — the calls on a file.
-/
import PreemptDB.Dynarray
import PreemptDB.OidPartition

namespace PreemptDB

/-- What can go wrong: a bitset of L2 cannot be read, a word index is not below the
capacity of L3, the staging cache is overrun, the backing array throws, or a loop takes
more rounds than it can. -/
inductive L3Fault
  | unreadable
  | wordIndex
  | cacheOverrun
  | storage (e : DynarrayError)
  | rounds
  deriving DecidableEq

/-- A read of L2, which may fault. -/
def readL2 {α : Type*} (r : Option α) : Except L3Fault α := r.elim (.error .unreadable) .ok

/-- An unsigned number of 32 bits as a signed one. -/
def toInt32 (n : ℕ) : ℤ := if n < 2 ^ 31 then n else n - 2 ^ 32

/-- `l3_alloc_size`: 64 KiB for the header and L1, the arrays `l2`, `l2_assignments` and
`l2_maps`, and the words. -/
def l3AllocSize (endWord : ℕ) : ℕ := (1 + 4 + 2 + 32) * 2 ^ 16 + endWord * 8

/-- The header fields and the words of L3, and `backing_store`.  A word is the set of its
bits. -/
structure L3 where
  capacity : ℕ
  looseOids : ℕ
  scanHand : ℕ
  words : ℕ → Finset ℕ
  store : Dynarray

namespace L3

def valid (l : L3) : Prop := l.capacity ≠ 0

instance (l : L3) : Decidable l.valid := inferInstanceAs (Decidable (_ ≠ _))

/-- `l3_end` -/
def endOid (l : L3) : ℕ := l.capacity * 64 % 2 ^ 32

/-- What `init_l3` does to the backing array. -/
def resizeStore (l : L3) (endWord : ℕ) : Except DynarrayError Dynarray :=
  if l.capacity < endWord then l.store.ensureSize (l3AllocSize endWord)
  else if endWord < l.capacity then l.store.truncate (l3AllocSize endWord)
  else .ok l.store

/-- What `init_l3` does to the header and the words.  The words that are given up are not
looked at, and the scan hand is compared with the old capacity. -/
def resize (l : L3) (endWord : ℕ) : L3 :=
  if l.capacity < endWord then
    { l with
      capacity := endWord
      looseOids := if l.valid then l.looseOids else 0
      scanHand := if l.valid then l.scanHand else 0
      words := fun i => if l.capacity ≤ i ∧ i < endWord then ∅ else l.words i }
  else if endWord < l.capacity then
    if endWord = 0 then
      { l with capacity := 0, looseOids := 0xdeadbeef, scanHand := 0xdeadbeef }
    else
      { l with
        capacity := endWord
        scanHand := if l.capacity ≤ l.scanHand then 0 else l.scanHand }
  else l

/-- `init_l3`; the array is resized first, and that may throw. -/
def init (l : L3) (endWord : ℕ) : Except L3Fault L3 :=
  match l.resizeStore endWord with
  | .ok store => .ok { l.resize endWord with store := store }
  | .error e => .error (.storage e)

/-- `_insert_l3` -/
def insert (l : L3) (x : ℕ) : Except L3Fault L3 :=
  if x / 64 < l.capacity then
    .ok { l with
      words := Function.update l.words (x / 64) (Insert.insert (x % 64) (l.words (x / 64)))
      looseOids := (l.looseOids + 1) % 2 ^ 32 }
  else .error .wordIndex

/-- The OIDs that a scan of L2 passes to the sink. -/
def insertAll (l : L3) : List ℕ → Except L3Fault L3
  | [] => .ok l
  | x :: xs => (l.insert x).bind fun l => l.insertAll xs

/-- The word at the scan hand is emptied, and the scan hand goes to `next`. -/
def takeWord (l : L3) (next : ℕ) : L3 where
  capacity := l.capacity
  looseOids := usub 32 l.looseOids (l.words l.scanHand).card
  scanHand := next
  words := Function.update l.words l.scanHand ∅
  store := l.store

end L3

/-- The filter of `_drain_l2`: does the swath end by `l3_end`? -/
def fits (l3End base : ℕ) : Bool := (base + 2 ^ 16) % 2 ^ 32 ≤ l3End

/-- The swaths that `_scan_l2` passes to its filter. -/
def L2.scanBases (f : ℕ → Bool) : ℕ → L2 → ℤ → ℕ → List ℕ
  | 0, _, _, _ => []
  | n + 1, l, target, rejects =>
    if 0 < target ∧ rejects < l.size then
      let base := l.slots (l.size - 1) / 2 ^ 16 * 2 ^ 16
      base :: if f base then scanBases f n l.popFull (target - SparseBitset.CAPACITY) rejects
        else scanBases f n (l.swapReject rejects) target (rejects + 1)
    else []

/-- `biggest`, after the filter of `_drain_l2` has seen these swaths. -/
def biggest (bases : List ℕ) : ℕ := bases.foldl (fun b x => max b ((x + 2 ^ 16) % 2 ^ 32)) 0

/-- An allocator with its L3; `upper` is the rest of it. -/
structure AllocatorL3 where
  upper : Allocator
  l3 : L3

namespace AllocatorL3

/-- The number of words of a new L3. -/
def newCapacity (a : AllocatorL3) : ℕ := min (2 ^ 24) a.upper.capacityMark / 64

/-- `_drain_l2` creates L3 if there is none. -/
def createL3 (a : AllocatorL3) : Except L3Fault AllocatorL3 :=
  if a.l3.valid then .ok a
  else (a.l3.init a.newCapacity).map fun l3 => ⟨a.upper, l3⟩

/-- The first preference of `_drain_l2`: bitmaps that are not full and fit in L3.  An L2
that has not been created is not read. -/
def drainFirst (mem : Memory) (a : AllocatorL3) (n : ℕ) : Except L3Fault (AllocatorL3 × ℤ) := do
  if 0 < toInt32 n ∧ ¬ a.upper.l2.valid then throw .unreadable
  let (l2, xs, left) ← readL2 (a.upper.l2.scavenge mem (fits a.l3.endOid) (toInt32 n))
  let l3 ← a.l3.insertAll xs
  return (⟨{ a.upper with l2 := l2 }, l3⟩, left)

/-- The second preference: full bitmaps that fit. -/
def drainSecond (mem : Memory) (a : AllocatorL3) (target : ℤ) :
    Except L3Fault (AllocatorL3 × ℤ × ℕ) := do
  let l2 := a.upper.l2
  let (l2', xs, left) ← readL2 (l2.scan mem (fits a.l3.endOid) l2.size target 0)
  let l3 ← a.l3.insertAll xs
  return (⟨{ a.upper with l2 := l2' }, l3⟩, left,
    biggest (l2.scanBases (fits a.l3.endOid) l2.size target 0))

/-- The third preference: any full bitmaps, with another size of L3. -/
def drainThird (mem : Memory) (a : AllocatorL3) (target : ℤ) (endWord : ℕ) :
    Except L3Fault (AllocatorL3 × ℤ) := do
  let l3 ← a.l3.init endWord
  let l2 := a.upper.l2
  let (l2', xs, left) ← readL2 (l2.scan mem (fun _ => true) l2.size target 0)
  let l3 ← l3.insertAll xs
  return (⟨{ a.upper with l2 := l2' }, l3⟩, left)

/-- `_drain_l2` -/
def drainL2 (mem : Memory) (a : AllocatorL3) (n : ℕ) : Except L3Fault (AllocatorL3 × ℤ) := do
  let a ← a.createL3
  let (a, left) ← a.drainFirst mem n
  if left ≤ 0 then return (a, 0)
  let (a, left, biggest) ← a.drainSecond mem left
  if left ≤ 0 then return (a, 0)
  if biggest = 0 then return (a, left)
  let (a, left) ← a.drainThird mem left (biggest / 64)
  return (a, max left 0)

/-- The filter of `_scavenge_l3`, which drains the staging cache `tc` if it cannot absorb
another word. -/
def absorbWord (a : Allocator) (tc : ThreadCache) : Allocator × ThreadCache × Bool :=
  if tc.spaceRemaining < 64 then
    let r := a.drainCache tc 0
    if r.1.l1Size + CACHE_N ≤ L1_CAPACITY then (r.1, r.2.1, true)
    else
      let a := r.1.drainL1 (L1_CAPACITY / 2)
      (a, r.2.1, a.l1Size + CACHE_N ≤ L1_CAPACITY)
  else (a, tc, true)

/-- The word at the scan hand: if it is not empty and the filter agrees, all its bits are
staged. -/
def scavengeWord (a : AllocatorL3) (tc : ThreadCache) (target : ℤ) :
    Except L3Fault (AllocatorL3 × ThreadCache × ℤ) :=
  let hand := a.l3.scanHand
  let next := if a.l3.capacity ≤ hand + 1 then 0 else hand + 1
  if hand < a.l3.capacity then
    let word := a.l3.words hand
    if word = ∅ then .ok (⟨a.upper, { a.l3 with scanHand := next }⟩, tc, target)
    else
      let r := absorbWord a.upper tc
      if r.2.2 then
        if r.2.1.nentries + word.card ≤ CACHE_N then
          .ok (⟨r.1, a.l3.takeWord next⟩, r.2.1.append ((word.sort (· ≤ ·)).map (hand * 64 + ·)),
            target - word.card)
        else .error .cacheOverrun
      else .ok (⟨r.1, { a.l3 with scanHand := next }⟩, r.2.1, target)
  else .error .wordIndex

/-- The loop of `_scavenge_l3`; the first argument is how many words are left. -/
def scavengeWords (sentinel : ℕ) : ℕ → AllocatorL3 → ThreadCache → ℤ →
    Except L3Fault (AllocatorL3 × ThreadCache × ℤ)
  | 0, _, _, _ => .error .rounds
  | n + 1, a, tc, target =>
    if 0 < target then
      (a.scavengeWord tc target).bind fun r =>
        if r.1.l3.scanHand = sentinel then .ok r else scavengeWords sentinel n r.1 r.2.1 r.2.2
    else .ok (a, tc, target)

/-- `_scavenge_l3(n)`, with the staging cache as it is left behind. -/
def scavengeL3 (a : AllocatorL3) (n : ℕ) : Except L3Fault (AllocatorL3 × ThreadCache × ℤ) :=
  if a.l3.valid then
    scavengeWords a.l3.scanHand a.l3.capacity a ⟨0, fun _ => 0⟩ (toInt32 n)
  else .ok (a, ⟨0, fun _ => 0⟩, 0)

/-- `fill_cache` after `_scavenge_l2`; the staging cache of `_scavenge_l3` is dropped. -/
def scavengeRest (u : Allocator) (l3 : L3) (left : ℤ) : Option (Allocator × L3) :=
  if 0 < left ∧ l3.looseOids ≠ 0 then
    (scavengeL3 ⟨u, l3⟩ left.toNat).toOption.map fun r => (r.1.upper, r.1.l3)
  else some (u, l3)

/-- `fill_cache` -/
def fillCache (mem : Memory) (a : AllocatorL3) (tc : ThreadCache) :
    Option (AllocatorL3 × ThreadCache × Bool) :=
  (Allocator.fillLoop L3.looseOids scavengeRest mem (FILL_TARGET + 2) a.upper a.l3 tc
    (Allocator.fillTarget tc)).map fun r => (⟨r.1, r.2.1⟩, r.2.2)

end AllocatorL3

/-- The state of a file with its L3. -/
structure L3System (ι : Type*) where
  sys : OidSystem ι
  l3 : L3

inductive L3Act (ι : Type*)
  | drainL2 (n : ℕ) (mem : Memory)
  | scavengeL3 (n : ℕ)
  | fill (c : ι) (mem : Memory)

namespace L3System

variable {ι : Type*}

def alloc (s : L3System ι) : AllocatorL3 := ⟨s.sys.alloc, s.l3⟩

def setAlloc (s : L3System ι) (a : AllocatorL3) : L3System ι :=
  ⟨{ s.sys with alloc := a.upper }, a.l3⟩

def step [DecidableEq ι] (s : L3System ι) : L3Act ι → Option (L3System ι)
  | .drainL2 n mem => (s.alloc.drainL2 mem n).toOption.map fun r => s.setAlloc r.1
  | .scavengeL3 n => (s.alloc.scavengeL3 n).toOption.map fun r => s.setAlloc r.1
  | .fill c mem =>
    if (s.sys.cache c).nentries = 0 ∨ s.sys.incomplete c then
      (s.alloc.fillCache mem (s.sys.cache c)).map fun r =>
        ⟨{ s.sys.setCache c r.2.1 (!r.2.2) with alloc := r.1.upper }, r.1.l3⟩
    else none

end L3System

end PreemptDB
