/-
The boundary of a range scan (`masstree_btree.h`, `masstree_scan.hh`).

A scan visits leaves and keys layer by layer.  For every leaf `check` decides whether its keys
have to be compared with the boundary; `visit_value` compares only if `boundary_compar_` is set.
The flag is computed from the bytes of the layer and the last slice of the leaf, and it may keep
the value that an earlier leaf left.

* `check`, `rejects` — the two methods of the scanner;
* `step` — the loop of `basic_table::scan`, with the results of the searches as choices;
* `check_exact` — after `check` a comparison is left out only where it would not reject;
* `scan_boundary_exact` — a key is rejected if and only if it is at or beyond the boundary.

`ka` is the bytes of the layers above (`layer`) and the rest of the key (`rest`).
-/
import PreemptDB.KeyCodec
import PreemptDB.StepRun

namespace PreemptDB

open ByteOrder

namespace RangeScan

/-- The first `n` bytes of a string in a buffer of zeros. -/
def padded : ℕ → List UInt8 → List UInt8
  | 0, _ => []
  | n + 1, [] => 0 :: padded n []
  | n + 1, x :: s => x :: padded n s

/-- `string_slice<uint64_t>::make_comparable` -/
def makeComparable (s : List UInt8) : ℕ := beValue (padded 8 s)

/-- `varstr::slice_at` -/
def sliceAt (s : List UInt8) (pos : ℕ) : ℕ := makeComparable (s.drop pos)

/-- A leaf as a scan sees it: the slices of its keys in the order of the permutation. -/
structure Leaf where
  slices : List ℕ
  nonempty : slices ≠ []
  sorted : slices.Pairwise (· ≤ ·)

/-- `ikey0_[permutation()[permutation().size() - 1]]` -/
def Leaf.lastIkey (leaf : Leaf) : ℕ := leaf.slices.getLast leaf.nonempty

section Scanner

-- `Reverse` and `boundary_`
variable (reverse : Bool) (boundary : List UInt8)

/-- `search_range_scanner_base::check`: the new value of `boundary_compar_`. -/
def check (leaf : Leaf) (layer : List UInt8) (boundaryCompar : Bool) : Bool :=
  let cmp := Varstr.memcmp (min boundary.length layer.length) boundary layer
  if !reverse then
    if cmp < 0 ∨ (cmp = 0 ∧ boundary.length ≤ layer.length) then true
    else if cmp = 0 then decide (sliceAt boundary layer.length ≤ leaf.lastIkey)
    else boundaryCompar
  else if 0 ≤ cmp then true
  else boundaryCompar

/-- `visit_value` returns without a call of the callback. -/
def rejects (boundaryCompar : Bool) (key : List UInt8) : Bool :=
  boundaryCompar &&
    ((!reverse && Varstr.le boundary key) || (reverse && Varstr.ge boundary key))

/-- A key is at or beyond the boundary in the direction of the scan. -/
def Beyond (key : List UInt8) : Prop := if reverse then key ≤ boundary else boundary ≤ key

end Scanner

/-- The states of the loop; `initial` is the loop of `find_initial` before it. -/
inductive State
  | initial
  | emit
  | findNext
  | up
  | down
  | retry
  | done
  deriving DecidableEq

/-- What `find_next` returns, and the leaf that it has moved on to. -/
inductive Found
  | emit (rest : List UInt8)
  | down (slice : List UInt8)
  | retry
  | findNext (leaf : Leaf)
  | up

/-- What `find_initial` returns. -/
inductive Initial
  | emit (rest : List UInt8)
  | down
  | findNext

structure Visit where
  key : List UInt8
  rejected : Bool
  deriving DecidableEq

structure Scan where
  state : State
  layer : List UInt8
  rest : List UInt8
  /-- The leaves of `stack`, the one at `stackpos` first. -/
  stack : List Leaf
  boundaryCompar : Bool
  /-- The calls of `visit_value` so far. -/
  visits : List Visit

def start (firstkey : List UInt8) : Scan := ⟨.initial, [], firstkey, [], false, []⟩

/-- The choices of the environment in one turn of the loop. -/
inductive Act
  | initial (leaf : Leaf) (r : Initial)
  /-- The version is visible, the callback wants more, and what `find_next` returns. -/
  | emit (visible more : Bool) (r : Found)
  | find (r : Found)
  | reach (leaf : Leaf)

namespace Scan

/-- `ka` after `find_next`, and the state that it returns: a key that is found is one of the
leaf, and so is the slice under which a further layer hangs. -/
def found (s : Scan) : Found → Option Scan
  | .emit rest =>
    match s.stack with
    | leaf :: _ =>
      if makeComparable rest ∈ leaf.slices then some { s with state := .emit, rest := rest }
      else none
    | [] => none
  | .down slice =>
    match s.stack with
    | leaf :: _ =>
      if slice.length = 8 ∧ makeComparable slice ∈ leaf.slices then
        some { s with state := .down, rest := slice }
      else none
    | [] => none
  | .retry => some { s with state := .retry }
  | .findNext leaf => some { s with state := .findNext, stack := leaf :: s.stack.tail }
  | .up => some { s with state := .up }

section Loop

variable (reverse : Bool) (boundary : List UInt8)

/-- `visit_leaf` -/
def visitLeaf (s : Scan) : Scan :=
  match s.stack with
  | leaf :: _ => { s with boundaryCompar := check reverse boundary leaf s.layer s.boundaryCompar }
  | [] => s

/-- `find_next:` — the search, and `visit_leaf` unless the layer is at its end. -/
def findNext (s : Scan) (r : Found) : Option Scan :=
  (s.found r).map fun s => if s.state = .up then s else s.visitLeaf reverse boundary

/-- A turn of the first loop: `find_initial` has reached `leaf`. -/
def initialStep (s : Scan) (leaf : Leaf) (r : Initial) : Option Scan :=
  let s := { s with stack := leaf :: s.stack }.visitLeaf reverse boundary
  match r with
  | .emit rest =>
    if makeComparable rest ∈ leaf.slices then some { s with state := .emit, rest := rest } else none
  | .findNext => some { s with state := .findNext }
  -- `ka.shift()`: the loop goes on in the layer below
  | .down =>
    if 8 ≤ s.rest.length then
      some { s with layer := s.layer ++ s.rest.take 8, rest := s.rest.drop 8 }
    else none

/-- `case scan_emit` -/
def emitStep (s : Scan) (visible more : Bool) (r : Found) : Option Scan :=
  if visible then
    let key := s.layer ++ s.rest
    let rejected := rejects reverse boundary s.boundaryCompar key
    let s := { s with visits := s.visits ++ [Visit.mk key rejected] }
    if rejected || !more then some { s with state := .done } else s.found r
  else s.found r

/-- `case scan_up`: `ka.unshift()` leaves a key of nine bytes, so that `ka.empty()` is false. -/
def upStep (s : Scan) (r : Found) : Option Scan :=
  match s.stack.tail with
  | [] => some { s with state := .done }
  | _ :: _ =>
    { s with stack := s.stack.tail, layer := s.layer.take (s.layer.length - 8) }.findNext
      reverse boundary r

/-- One turn of the loop. -/
def step (s : Scan) (a : Act) : Option Scan :=
  match s.state, a with
  | .initial, .initial leaf r => s.initialStep reverse boundary leaf r
  | .emit, .emit visible more r => s.emitStep reverse boundary visible more r
  | .findNext, .find r => s.findNext reverse boundary r
  | .up, .find r => s.upStep reverse boundary r
  | .down, .reach leaf =>
    some { s with state := .findNext, layer := s.layer ++ s.rest, rest := [],
                  stack := leaf :: s.stack }
  | .retry, .reach leaf => some { s with state := .findNext, stack := leaf :: s.stack.tail }
  | _, _ => none

end Loop

end Scan

section Slices

/-- Padding with zeros keeps the order. -/
theorem lt_of_padded_lt {n : ℕ} {a b : List UInt8} (h : padded n a < padded n b) : a < b := by
  induction n generalizing a b with
  | zero => exact absurd h (lt_irrefl _)
  | succ n ih =>
    cases a with
    | nil =>
      cases b with
      | nil => exact absurd h (lt_irrefl _)
      | cons y b => exact List.nil_lt_cons y b
    | cons x a =>
      cases b with
      | nil =>
        rw [padded, padded, List.cons_lt_cons_iff] at h
        rcases h with hlt | ⟨-, hlt⟩
        · exact absurd hlt (by rw [UInt8.lt_iff_toNat_lt]; exact Nat.not_lt_zero _)
        · exact absurd (ih hlt) (List.not_lt_nil a)
      | cons y b =>
        rw [padded, padded, List.cons_lt_cons_iff] at h
        rcases h with hlt | ⟨rfl, hlt⟩
        · exact List.cons_lt_cons_iff.mpr (.inl hlt)
        · exact List.cons_lt_cons_iff.mpr (.inr ⟨rfl, ih hlt⟩)

theorem length_padded (n : ℕ) (s : List UInt8) : (padded n s).length = n := by
  induction n generalizing s with
  | zero => rfl
  | succ n ih =>
    cases s <;> rw [padded, List.length_cons, ih]

theorem lt_of_makeComparable_lt {a b : List UInt8} (h : makeComparable a < makeComparable b) :
    a < b := by
  have hlen : (padded 8 a).length = (padded 8 b).length := by rw [length_padded, length_padded]
  exact lt_of_padded_lt ((lt_iff_beValue_lt hlen).mpr h)

theorem Leaf.le_lastIkey (leaf : Leaf) {x : ℕ} (hx : x ∈ leaf.slices) : x ≤ leaf.lastIkey := by
  have hsplit := List.dropLast_append_getLast leaf.nonempty
  have hsorted := leaf.sorted
  rw [← hsplit, List.pairwise_append] at hsorted
  rw [← hsplit, List.mem_append, List.mem_singleton] at hx
  rcases hx with hx | rfl
  · exact hsorted.2.2 x hx _ (List.mem_singleton_self _)
  · exact le_rfl

end Slices

section Check

variable {reverse : Bool} {boundary : List UInt8}

/-- No key of the leaf is beyond the boundary. -/
def Within (reverse : Bool) (boundary : List UInt8) (leaf : Leaf) (layer : List UInt8) : Prop :=
  ∀ rest, makeComparable rest ∈ leaf.slices → ¬ Beyond reverse boundary (layer ++ rest)

/-- If `check` leaves the flag unset, no key of the leaf needs a comparison. -/
theorem check_exact {leaf : Leaf} {layer : List UInt8} {b : Bool}
    (h : check reverse boundary leaf layer b = false) : Within reverse boundary leaf layer := by
  intro rest hrest
  have hspec := Varstr.memcmp_spec boundary layer
  rw [check] at h
  cases reverse with
  | false =>
    -- every key of the leaf is below the boundary
    suffices hlt : layer ++ rest < boundary from not_le.mpr hlt
    simp only [Bool.not_false, if_true] at h
    rcases hspec with ⟨hneg, -⟩ | ⟨hpos, hgt⟩ | ⟨hzero, hpre⟩
    · rw [if_pos (.inl hneg)] at h
      exact absurd h (by decide)
    · simpa using hgt [] rest
    · split at h
      · exact absurd h (by decide)
      · rename_i hnot
        have hlong : layer.length < boundary.length := by
          rw [not_or, not_and, not_le] at hnot
          exact hnot.2 hzero
        rw [decide_eq_false_iff_not, not_le] at h
        obtain ⟨r, rfl⟩ : layer <+: boundary :=
          hpre.resolve_left fun hle => absurd hle.length_le (not_le.mpr hlong)
        rw [sliceAt, List.drop_left] at h
        exact List.append_left_lt (lt_of_makeComparable_lt ((leaf.le_lastIkey hrest).trans_lt h))
  | true =>
    suffices hlt : boundary < layer ++ rest from not_le.mpr hlt
    simp only [Bool.not_true, Bool.false_eq_true, if_false] at h
    rcases hspec with ⟨-, hlt⟩ | ⟨hpos, -⟩ | ⟨hzero, -⟩
    · simpa using hlt [] rest
    · rw [if_pos hpos.le] at h
      exact absurd h (by decide)
    · rw [if_pos hzero.ge] at h
      exact absurd h (by decide)

/-- With the flag set the comparison decides. -/
theorem rejects_iff {leaf : Leaf} {layer rest : List UInt8} {b : Bool}
    (hwithin : b = false → Within reverse boundary leaf layer)
    (hrest : makeComparable rest ∈ leaf.slices) :
    rejects reverse boundary b (layer ++ rest) = true ↔
      Beyond reverse boundary (layer ++ rest) := by
  cases b with
  | false => exact iff_of_false (by simp [rejects]) (hwithin rfl rest hrest)
  | true =>
    cases reverse with
    | false => simp [rejects, Beyond, Varstr.le_iff]
    | true => simp [rejects, Beyond, Varstr.ge_iff]

end Check

namespace Scan

/-- In state `emit` the key is one of the leaf at `stackpos`, and `check` was called for that
leaf; the calls of `visit_value` so far were exact. -/
structure Inv (reverse : Bool) (boundary : List UInt8) (s : Scan) : Prop where
  emit : s.state = .emit → ∃ leaf stack, s.stack = leaf :: stack ∧
    makeComparable s.rest ∈ leaf.slices ∧
    (s.boundaryCompar = false → Within reverse boundary leaf s.layer)
  visits : ∀ v ∈ s.visits, v.rejected = true ↔ Beyond reverse boundary v.key

section Steps

variable {reverse : Bool} {boundary : List UInt8} {s s' : Scan}

/-- What `find_next` changes. -/
theorem found_spec {r : Found} (h : s.found r = some s') :
    s'.visits = s.visits ∧ s'.layer = s.layer ∧ s'.boundaryCompar = s.boundaryCompar ∧
      (s'.state = .emit → ∃ leaf stack, s.stack = leaf :: stack ∧ s'.stack = leaf :: stack ∧
        makeComparable s'.rest ∈ leaf.slices) := by
  cases r with
  | emit rest =>
    rw [found] at h
    split at h
    · rename_i leaf stack hstack
      obtain ⟨hmem, heq⟩ := Option.ite_none_right_eq_some.mp h
      cases heq
      exact ⟨rfl, rfl, rfl, fun _ => ⟨leaf, stack, hstack, hstack, hmem⟩⟩
    · cases h
  | down slice =>
    rw [found] at h
    split at h
    · obtain ⟨-, heq⟩ := Option.ite_none_right_eq_some.mp h
      cases heq
      exact ⟨rfl, rfl, rfl, nofun⟩
    · cases h
  | retry | findNext _ | up =>
    cases h
    exact ⟨rfl, rfl, rfl, nofun⟩

theorem visitLeaf_cons {leaf : Leaf} {stack : List Leaf} (h : s.stack = leaf :: stack) :
    s.visitLeaf reverse boundary =
      { s with boundaryCompar := check reverse boundary leaf s.layer s.boundaryCompar } := by
  rw [visitLeaf, h]

theorem visitLeaf_frame : (s.visitLeaf reverse boundary).visits = s.visits ∧
    (s.visitLeaf reverse boundary).state = s.state := by
  rw [visitLeaf]
  split <;> exact ⟨rfl, rfl⟩

/-- A key that `find_next` has found is visited after `check` for its leaf. -/
theorem Inv.findNext {r : Found}
    (hi : ∀ v ∈ s.visits, v.rejected = true ↔ Beyond reverse boundary v.key)
    (h : s.findNext reverse boundary r = some s') : Inv reverse boundary s' := by
  obtain ⟨t, hfound, rfl⟩ := Option.map_eq_some_iff.mp h
  obtain ⟨hvisits, -, -, hemit⟩ := found_spec hfound
  split
  · rename_i hup
    refine ⟨fun he => ?_, by rwa [hvisits]⟩
    rw [hup] at he
    cases he
  · refine ⟨fun he => ?_, by rwa [visitLeaf_frame.1, hvisits]⟩
    rw [visitLeaf_frame.2] at he
    obtain ⟨leaf, stack, -, hstack, hmem⟩ := hemit he
    rw [visitLeaf_cons hstack]
    exact ⟨leaf, stack, hstack, hmem, check_exact⟩

/-- The next key of the same leaf needs no further `check`. -/
theorem Inv.found {r : Found} (hi : Inv reverse boundary s) (hstate : s.state = .emit)
    (h : s.found r = some s') : Inv reverse boundary s' := by
  obtain ⟨hvisits, hlayer, hflag, hemit⟩ := found_spec h
  refine ⟨fun he => ?_, by rw [hvisits]; exact hi.visits⟩
  obtain ⟨leaf, stack, hstack, hstack', hmem⟩ := hemit he
  obtain ⟨leaf', stack'', hstack'', -, hwithin⟩ := hi.emit hstate
  rw [hstack] at hstack''
  obtain ⟨rfl, rfl⟩ := List.cons.inj hstack''
  exact ⟨leaf, stack, hstack', hmem, by rwa [hflag, hlayer]⟩

theorem Inv.initialStep {leaf : Leaf} {r : Initial} (hi : Inv reverse boundary s)
    (hstate : s.state = .initial) (h : s.initialStep reverse boundary leaf r = some s') :
    Inv reverse boundary s' := by
  cases r with
  | emit rest =>
    obtain ⟨hmem, heq⟩ := Option.ite_none_right_eq_some.mp h
    cases heq
    exact ⟨fun _ => ⟨leaf, s.stack, rfl, hmem, check_exact⟩, hi.visits⟩
  | down =>
    obtain ⟨-, heq⟩ := Option.ite_none_right_eq_some.mp h
    cases heq
    refine ⟨fun he => ?_, hi.visits⟩
    have he : s.state = .emit := he
    rw [hstate] at he
    cases he
  | findNext =>
    cases h
    exact ⟨nofun, hi.visits⟩

theorem Inv.emitStep {visible more : Bool} {r : Found} (hi : Inv reverse boundary s)
    (hstate : s.state = .emit) (h : s.emitStep reverse boundary visible more r = some s') :
    Inv reverse boundary s' := by
  rw [Scan.emitStep] at h
  obtain ⟨leaf, stack, hstack, hmem, hwithin⟩ := hi.emit hstate
  split at h
  · -- the verdict is added to the calls so far
    have hvisits : ∀ v ∈ s.visits ++ [Visit.mk (s.layer ++ s.rest)
        (rejects reverse boundary s.boundaryCompar (s.layer ++ s.rest))],
        v.rejected = true ↔ Beyond reverse boundary v.key := by
      intro v hv
      rcases List.mem_append.mp hv with hv | hv
      · exact hi.visits v hv
      · rw [List.mem_singleton.mp hv]
        exact rejects_iff hwithin hmem
    dsimp only at h
    split at h
    · cases h
      exact ⟨nofun, hvisits⟩
    · have hi' : Inv reverse boundary { s with visits := s.visits ++ [Visit.mk (s.layer ++ s.rest)
          (rejects reverse boundary s.boundaryCompar (s.layer ++ s.rest))] } :=
        ⟨fun _ => ⟨leaf, stack, hstack, hmem, hwithin⟩, hvisits⟩
      exact hi'.found hstate h
  · exact hi.found hstate h

theorem Inv.upStep {r : Found} (hi : Inv reverse boundary s)
    (h : s.upStep reverse boundary r = some s') : Inv reverse boundary s' := by
  rw [Scan.upStep] at h
  split at h
  · cases h
    exact ⟨nofun, hi.visits⟩
  · refine Inv.findNext ?_ h
    exact hi.visits

theorem Inv.step {a : Act} (h : s.step reverse boundary a = some s')
    (hi : Inv reverse boundary s) : Inv reverse boundary s' := by
  unfold Scan.step at h
  split at h
  next leaf r hstate => exact hi.initialStep hstate h
  next visible more r hstate => exact hi.emitStep hstate h
  next => exact Inv.findNext hi.visits h
  next => exact hi.upStep h
  next =>
    cases h
    exact ⟨nofun, hi.visits⟩
  next =>
    cases h
    exact ⟨nofun, hi.visits⟩
  next => cases h

end Steps

end Scan

/-- In every scan `visit_value` rejects exactly the keys at or beyond the boundary. -/
theorem scan_boundary_exact (reverse : Bool) (boundary firstkey : List UInt8) {acts : List Act}
    {s : Scan} (h : StepRun.run (Scan.step reverse boundary) (start firstkey) acts = some s) :
    ∀ v ∈ s.visits, v.rejected = true ↔
      if reverse then v.key ≤ boundary else boundary ≤ v.key :=
  (StepRun.run_invariant (I := Scan.Inv reverse boundary) Scan.Inv.step h ⟨nofun, nofun⟩).visits

/-- A leaf with the keys 0 and 1, and a scan up to 1. -/
def twoKeys : Leaf := ⟨[0, 2 ^ 56], by decide, by decide⟩

def twoKeysActs : List Act :=
  [.initial twoKeys .findNext, .find (.emit [0]), .emit true true (.emit [1]),
    .emit true true .up]

theorem scan_boundary_exact_twoKeys :
    (StepRun.run (Scan.step false [1]) (start []) twoKeysActs).map Scan.visits =
        some [⟨[0], false⟩, ⟨[1], true⟩] ∧
      ∀ s, StepRun.run (Scan.step false [1]) (start []) twoKeysActs = some s →
        ∀ v ∈ s.visits, v.rejected = true ↔ if false then v.key ≤ [1] else [1] ≤ v.key :=
  ⟨by decide +kernel, fun _ h => scan_boundary_exact false [1] [] h⟩

end RangeScan

end PreemptDB
