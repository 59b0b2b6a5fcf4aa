/-
The OID allocator (`sm-oid-alloc.cpp`).

Free OIDs are kept in three places: the stack L1, the sparse bitsets of L2, and
above the high water mark.  Threads take and return OIDs through caches.  L3 is
not created on these paths; its counter keeps the canary value.  What `fill_cache`
does with an L3 is a parameter of its loop.

The array `l2` is used from both ends: below `size` it lists the full bitsets,
and from `firstUnused` on the numbers of the unused ones.

* `L2`, `Allocator`, `ThreadCache` — the data;
* `fillCache`, `drainCache` and the functions they are made of;
* `OidSystem.step` — the calls of the threads.
-/
import PreemptDB.Segment
import PreemptDB.SparseBitset
import PreemptDB.StepRun

namespace PreemptDB

open Function Segment

/-- Unsigned subtraction. -/
def usub (w a b : ℕ) : ℕ := (a + 2 ^ w - b) % 2 ^ w

/-- `L1_CAPACITY`: 64 KiB without the header of 56 bytes, in OIDs of four bytes. -/
def L1_CAPACITY : ℕ := (2 ^ 16 - 56) / 4

@[irreducible] def L2_CAPACITY : ℕ := 2 ^ 16

/-- `thread_cache::FILL_TARGET` and `thread_cache::N` -/
def FILL_TARGET : ℕ := 64
def CACHE_N : ℕ := 126

/-- `l3_loose_oids`, as long as there is no L3. -/
def l3LooseOids : ℕ := 0xdeadbeef

/-- The fields and arrays of L2; `slots` is the array `l2`. -/
structure L2 where
  size : ℕ
  firstUnused : ℕ
  scanHand : ℕ
  looseOids : ℕ
  slots : ℕ → ℕ
  assignments : ℕ → ℕ
  maps : ℕ → SparseBitset

structure Allocator where
  capacityMark : ℕ
  hiwaterMark : ℕ
  l1Size : ℕ
  l1 : ℕ → ℕ
  l2 : L2

structure ThreadCache where
  nentries : ℕ
  entries : ℕ → ℕ

def ThreadCache.spaceRemaining (tc : ThreadCache) : ℕ := usub 32 CACHE_N tc.nentries

/-- Sink a list of OIDs. -/
def ThreadCache.append (tc : ThreadCache) (xs : List ℕ) : ThreadCache :=
  ⟨tc.nentries + xs.length, put tc.entries tc.nentries xs⟩

namespace L2

def valid (l : L2) : Prop := l.firstUnused ≠ 0

instance (l : L2) : Decidable l.valid := inferInstanceAs (Decidable (_ ≠ _))

/-- `init_l2`; the bitmaps are not initialised. -/
def init (l : L2) : L2 where
  size := 0
  firstUnused := 1
  scanHand := 0
  looseOids := 0
  slots i := i
  assignments _ := 0
  maps := l.maps

/-- One round of `_drain_l1`, for the OID `x`; `none` if there is no bitmap left
for its swath. -/
def insertOid (l : L2) (x : ℕ) : Option L2 :=
  let swath := x / 2 ^ 16
  let bidx := l.assignments swath
  if bidx ≠ 0 then
    let (map, rval) := (l.maps bidx).insert (x % 2 ^ 16)
    let maps := Function.update l.maps bidx map
    if rval ≠ 0 then
      -- became full: move the map to the ready list
      some { l with
        maps := maps
        slots := Function.update l.slots l.size (swath * 2 ^ 16 + bidx)
        size := l.size + 1
        assignments := Function.update l.assignments swath 0
        looseOids := usub 32 (l.looseOids + 1) SparseBitset.CAPACITY }
    else some { l with maps := maps, looseOids := l.looseOids + 1 }
  else if l.firstUnused = L2_CAPACITY then none
  else
    let bidx := l.slots l.firstUnused % 2 ^ 16
    some { l with
      assignments := Function.update l.assignments swath bidx
      firstUnused := l.firstUnused + 1
      maps := Function.update l.maps bidx (.init1 (x % 2 ^ 16))
      looseOids := l.looseOids + 1 }

/-- An accepted bitset of `_scan_l2`: the last full one is taken off the list, and
its number goes to the unused ones. -/
def popFull (l : L2) : L2 :=
  { l with
    size := l.size - 1
    firstUnused := l.firstUnused - 1
    slots := Function.update l.slots (l.firstUnused - 1) (l.slots (l.size - 1) % 2 ^ 16) }

/-- A rejected bitset of `_scan_l2`. -/
def swapReject (l : L2) (r : ℕ) : L2 :=
  { l with
    slots := Function.update (Function.update l.slots (l.size - 1) (l.slots r)) r
      (l.slots (l.size - 1)) }

/-- `_scan_l2`, with the OIDs that are passed to the sink.  The first argument is
a bound for the number of rounds. -/
def scan (mem : Memory) (f : ℕ → Bool) : ℕ → L2 → ℤ → ℕ → Option (L2 × List ℕ × ℤ)
  | 0, l, target, _ => some (l, [], target)
  | n + 1, l, target, rejects =>
    if 0 < target ∧ rejects < l.size then
      let x := l.slots (l.size - 1)
      let base := x / 2 ^ 16 * 2 ^ 16
      if f base then do
        let offsets ← (l.maps (x % 2 ^ 16)).readAll mem
        let (l', xs, left) ← scan mem f n l.popFull (target - SparseBitset.CAPACITY) rejects
        return (l', offsets.map (base + ·) ++ xs, left)
      else scan mem f n (l.swapReject rejects) target (rejects + 1)
    else some (l, [], target)

/-- A swath of `_scavenge_l2`: its bitmap is unassigned. -/
def unassign (l : L2) (idx : ℕ) (n : ℕ) : L2 :=
  { l with
    looseOids := usub 32 l.looseOids n
    firstUnused := l.firstUnused - 1
    slots := Function.update l.slots (l.firstUnused - 1) (l.assignments idx)
    assignments := Function.update l.assignments idx 0 }

/-- The loop of `_scavenge_l2`, with the OIDs that are passed to the sink and the
number of swaths seen; the first argument is how many are left. -/
def scavengeLoop (mem : Memory) (f : ℕ → Bool) : ℕ → L2 → ℤ → ℕ → Option (L2 × List ℕ × ℤ × ℕ)
  | 0, l, target, i => some (l, [], target, i)
  | n + 1, l, target, i =>
    if 0 < target then
      let idx := (l.scanHand + i) % 2 ^ 16
      let base := idx * 2 ^ 16
      if l.assignments idx = 0 ∨ ¬ f base then scavengeLoop mem f n l target (i + 1)
      else do
        let offsets ← (l.maps (l.assignments idx)).readValues mem
        let (l', xs, left, i') ← scavengeLoop mem f n (l.unassign idx offsets.length)
          (target - offsets.length) (i + 1)
        return (l', offsets.map (base + ·) ++ xs, left, i')
    else some (l, [], target, i)

def scavenge (mem : Memory) (f : ℕ → Bool) (l : L2) (target : ℤ) :
    Option (L2 × List ℕ × ℤ) := do
  let (l', xs, left, i) ← scavengeLoop mem f L2_CAPACITY l target 0
  return ({ l' with scanHand := (l'.scanHand + i) % 2 ^ 32 }, xs, left)

end L2

namespace Allocator

/-- `propose_capacity(1)` -/
def proposeCapacity (a : Allocator) : ℕ :=
  let pc := min (5 * a.capacityMark % 2 ^ 32 / 4) (2 ^ 32 - 2)
  if pc = a.capacityMark then 0 else pc

/-- `_fill_from_l1`, with what is left of the target. -/
def fillFromL1 (a : Allocator) (tc : ThreadCache) (target : ℕ) : Allocator × ThreadCache × ℕ :=
  let n := min target a.l1Size
  ({ a with l1Size := a.l1Size - n },
    ⟨tc.nentries + n, copy tc.entries tc.nentries a.l1 (a.l1Size - n) n⟩, target - n)

/-- `_fill_from_l2` -/
def fillFromL2 (mem : Memory) (a : Allocator) (tc : ThreadCache) (target : ℕ) :
    Option (Allocator × ThreadCache × ℤ) :=
  if ¬ a.l2.valid ∨ a.l2.size = 0 then some (a, tc, target)
  else do
    let (l2, xs, left) ← a.l2.scan mem (fun _ => true) a.l2.size target 0
    return ({ a with l2 := l2 }, tc.append xs, left)

/-- The bump allocator. -/
def bump : ℕ → Allocator → ThreadCache → Allocator × ThreadCache × ℕ
  | 0, a, tc => (a, tc, 0)
  | target + 1, a, tc =>
    if a.hiwaterMark < a.capacityMark then
      bump target { a with hiwaterMark := a.hiwaterMark + 1 } (tc.append [a.hiwaterMark])
    else (a, tc, target + 1)

/-- `_scavenge_l2(target)`, with its result; the OIDs go to L1. -/
def scavengeL2 (mem : Memory) (a : Allocator) (target : ℕ) : Option (Allocator × ℤ) :=
  if ¬ a.l2.valid ∨ a.l2.looseOids < target then some (a, target)
  else do
    let (l2, xs, left) ← a.l2.scavenge mem (fun _ => true) target
    return ({ a with l2 := l2, l1Size := a.l1Size + xs.length, l1 := put a.l1 a.l1Size xs }, left)

/-- Is it worthwhile to scavenge?  The argument is `l3_loose_oids`. -/
def wantsScavenge (a : Allocator) (l3Loose : ℕ) : Bool :=
  usub 32 a.proposeCapacity a.capacityMark ≤ (a.l2.looseOids + l3Loose) % 2 ^ 32 ∧
    a.l2.looseOids ≠ 0

/-- `fill_cache` from `drain_l1` up to where it may scavenge.  The last component says
whether the call is over. -/
def fillRound (mem : Memory) (a : Allocator) (tc : ThreadCache) (target : ℕ) :
    Option (Allocator × ThreadCache × ℕ × Bool) := do
  let (a1, tc1, left1) := a.fillFromL1 tc target
  if a.l1Size ≠ 0 ∧ left1 = 0 then return (a1, tc1, 0, true)
  let (a2, tc2, left2) ← a1.fillFromL2 mem tc1 left1
  if (a1.l2.valid ∧ a1.l2.size ≠ 0) ∧ left2 ≤ 0 then return (a2, tc2, 0, true)
  let (a3, tc3, left3) := bump left2.toNat a2 tc2
  return (a3, tc3, left3, false)

/-- The body of `fill_cache`, entered again at `drain_l1` after scavenging; the
first explicit number bounds how often.  `loose` is the counter of L3, and `rest` is
what is done with L3 after `_scavenge_l2`, given the result of that call. -/
def fillLoop {σ : Type} (loose : σ → ℕ) (rest : Allocator → σ → ℤ → Option (Allocator × σ))
    (mem : Memory) : ℕ → Allocator → σ → ThreadCache → ℕ →
    Option (Allocator × σ × ThreadCache × Bool)
  | 0, _, _, _, _ => none
  | n + 1, a, l3, tc, target => do
    let (a3, tc3, left3, done) ← fillRound mem a tc target
    if done then return (a3, l3, tc3, true)
    if a3.wantsScavenge (loose l3) then
      let (a4, left4) ← a3.scavengeL2 mem (L1_CAPACITY / 2)
      let (a5, l3') ← rest a4 l3 left4
      if a5.l1Size ≠ 0 then fillLoop loose rest mem n a5 l3' tc3 left3
      else return (a5, l3', tc3, left3 = 0)
    else return (a3, l3, tc3, left3 = 0)

/-- What `fill_cache` wants; it is careful of overrun. -/
def fillTarget (tc : ThreadCache) : ℕ :=
  min FILL_TARGET (usub 64 tc.spaceRemaining SparseBitset.CAPACITY)

/-- `fill_cache` without an L3.  Each time it goes back to `drain_l1` it wants fewer OIDs. -/
def fillCache (mem : Memory) (a : Allocator) (tc : ThreadCache) :
    Option (Allocator × ThreadCache × Bool) :=
  (fillLoop (fun _ => l3LooseOids) (fun a l3 _ => some (a, l3)) mem (FILL_TARGET + 2) a () tc
    (fillTarget tc)).map fun r => (r.1, r.2.2)

/-- A round of `_drain_l1`. -/
def drainOid (a : Allocator) (x : ℕ) : Allocator :=
  match a.l2.insertOid x with
  | some l2 => { a with l2 := l2 }
  | none => { a with l1 := Function.update a.l1 a.l1Size x, l1Size := a.l1Size + 1 }

/-- The loop of `_drain_l1`, with `n` places of L1 from index `j` on to go. -/
def drainLoop : ℕ → ℕ → Allocator → Allocator
  | 0, _, a => a
  | n + 1, j, a => drainLoop n (j + 1) (a.drainOid (a.l1 j))

/-- `_drain_l1` -/
def drainL1 (a : Allocator) (target : ℕ) : Allocator :=
  let a := if a.l2.valid then a else { a with l2 := a.l2.init }
  drainLoop target (a.l1Size - target) { a with l1Size := a.l1Size - target }

/-- `drain_cache` makes room in L1 for the `n` OIDs of a cache, if it can. -/
def makeRoom (a : Allocator) (n : ℕ) : Allocator :=
  if L1_CAPACITY < (a.l1Size + n) % 2 ^ 32 then a.drainL1 (L1_CAPACITY / 2) else a

def drainCache (a : Allocator) (tc : ThreadCache) (target : ℕ) : Allocator × ThreadCache × Bool :=
  let target := if target = 0 then tc.nentries else target
  let a := a.makeRoom tc.nentries
  let n := min target (L1_CAPACITY - a.l1Size)
  let nentries := usub 32 tc.nentries n
  ({ a with l1 := copy a.l1 a.l1Size tc.entries nentries n, l1Size := a.l1Size + n },
    ⟨nentries, tc.entries⟩, target - n = 0)

end Allocator

/-- An allocator, the caches of the threads, and the OIDs held by the application.
A cache is `incomplete` when it has just been filled incompletely. -/
structure OidSystem (ι : Type*) where
  alloc : Allocator
  cache : ι → ThreadCache
  incomplete : ι → Bool
  held : Multiset ℕ

/-- Calls.  A call of `fill_cache` comes with what it finds in memory. -/
inductive OidAct (ι : Type*)
  | fill (c : ι) (mem : Memory)
  | drain (c : ι) (target : ℕ)
  | allocate (c : ι)
  | free (c : ι) (o : ℕ)
  | raise (capacity : ℕ)

namespace OidSystem

variable {ι : Type*} [DecidableEq ι]

/-- A new allocator; the OIDs below `hiwater` are reserved by its owner. -/
def init (hiwater : ℕ) (l1 : ℕ → ℕ) (l2 : L2) (entries : ι → ℕ → ℕ) : OidSystem ι where
  alloc :=
    { capacityMark := 1024 * 1024
      hiwaterMark := hiwater
      l1Size := 0
      l1 := l1
      l2 := { l2 with
        size := 0xdead
        firstUnused := 0
        scanHand := 0xdead
        looseOids := 0xdeadbeef } }
  cache c := ⟨0, entries c⟩
  incomplete _ := false
  held := Multiset.range hiwater

def setCache (s : OidSystem ι) (c : ι) (tc : ThreadCache) (incomplete : Bool) : OidSystem ι :=
  { s with
    cache := Function.update s.cache c tc
    incomplete := Function.update s.incomplete c incomplete }

def step (s : OidSystem ι) : OidAct ι → Option (OidSystem ι)
  | .fill c mem =>
    if (s.cache c).nentries = 0 ∨ s.incomplete c then
      (s.alloc.fillCache mem (s.cache c)).map fun r =>
        { s.setCache c r.2.1 (!r.2.2) with alloc := r.1 }
    else none
  | .drain c target =>
    let r := s.alloc.drainCache (s.cache c) target
    some { s.setCache c r.2.1 false with alloc := r.1 }
  | .allocate c =>
    -- `entries[--nentries]`
    let tc := s.cache c
    if tc.nentries = 0 then none
    else
      some { s.setCache c ⟨tc.nentries - 1, tc.entries⟩ false with
        held := tc.entries (tc.nentries - 1) ::ₘ s.held }
  | .free c o =>
    if o ∈ s.held ∧ (s.cache c).nentries < CACHE_N then
      some { s.setCache c ((s.cache c).append [o]) false with held := s.held.erase o }
    else none
  | .raise capacity =>
    if s.alloc.capacityMark ≤ capacity ∧ capacity < 2 ^ 32 then
      some { s with alloc := { s.alloc with capacityMark := capacity } }
    else none

end OidSystem

end PreemptDB
