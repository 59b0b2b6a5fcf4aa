/-
Chains through next pointers.

`IsChain next r l` says that following `next` from the pointer `r` visits
exactly the nodes of the list `l` and then ends at the null pointer.  The
nodes are of any type; a pointer is an `Option`.

* `IsChain.unique`, `IsChain.nodup` — a pointer has one chain, without repeats;
* `IsChain.congr` — only the next pointers of the visited nodes matter;
* `IsChain.drop`, `IsChain.next_mem` — the rest of a chain is a chain.
-/
import Mathlib.Tactic

namespace LinkedChain

variable {ν : Type*} {next next' : ν → Option ν}

/-- Following `next` from `r` visits the nodes of the list, then ends. -/
def IsChain (next : ν → Option ν) : Option ν → List ν → Prop
  | r, [] => r = none
  | r, p :: l => r = some p ∧ IsChain next (next p) l

@[simp] theorem isChain_nil {r : Option ν} : IsChain next r [] ↔ r = none := Iff.rfl

@[simp] theorem isChain_cons {r : Option ν} {p : ν} {l : List ν} :
    IsChain next r (p :: l) ↔ r = some p ∧ IsChain next (next p) l := Iff.rfl

theorem isChain_none {l : List ν} : IsChain next none l ↔ l = [] := by
  cases l with
  | nil => simp
  | cons p l => simp

theorem isChain_some {p : ν} {l : List ν} :
    IsChain next (some p) l ↔ ∃ t, l = p :: t ∧ IsChain next (next p) t := by
  cases l with
  | nil => simp
  | cons q l =>
    constructor
    · rintro ⟨hq, hl⟩
      rw [Option.some_inj] at hq
      subst hq
      exact ⟨l, rfl, hl⟩
    · rintro ⟨t, ht, hl⟩
      rw [List.cons_eq_cons] at ht
      obtain ⟨rfl, rfl⟩ := ht
      exact ⟨rfl, hl⟩

theorem IsChain.head? {r : Option ν} {l : List ν} (h : IsChain next r l) : l.head? = r := by
  cases l with
  | nil => exact h.symm
  | cons p l => exact h.1.symm

/-- A pointer has at most one chain. -/
theorem IsChain.unique {l l' : List ν} :
    ∀ {r : Option ν}, IsChain next r l → IsChain next r l' → l = l' := by
  induction l generalizing l' with
  | nil =>
    intro r h h'
    rw [isChain_nil] at h
    subst h
    exact (isChain_none.mp h').symm
  | cons p l ih =>
    intro r h h'
    obtain ⟨rfl, hl⟩ := h
    obtain ⟨t, rfl, ht⟩ := isChain_some.mp h'
    rw [ih hl ht]

/-- Only the next pointers of the visited nodes matter. -/
theorem IsChain.congr {l : List ν} :
    ∀ {r : Option ν}, IsChain next r l → (∀ p ∈ l, next' p = next p) → IsChain next' r l := by
  induction l with
  | nil =>
    intro r h _
    exact h
  | cons p l ih =>
    intro r h hn
    refine ⟨h.1, ?_⟩
    rw [hn p (by simp)]
    exact ih h.2 fun q hq => hn q (by simp [hq])

/-- From a node of a chain, the rest of the chain follows. -/
theorem IsChain.drop {p : ν} {t : List ν} :
    ∀ {l : List ν} {r : Option ν}, IsChain next r (l ++ p :: t) →
      IsChain next (some p) (p :: t) := by
  intro l
  induction l with
  | nil =>
    intro r h
    exact ⟨rfl, h.2⟩
  | cons q l ih =>
    intro r h
    exact ih h.2

theorem IsChain.next_mem {p : ν} {l : List ν} {r : Option ν} (h : IsChain next r l)
    (hp : p ∈ l) : ∃ t, IsChain next (next p) t ∧ p :: t <:+ l := by
  obtain ⟨a, t, rfl⟩ := List.append_of_mem hp
  exact ⟨t, h.drop.2, ⟨a, rfl⟩⟩

/-- A chain visits no node twice: from a repeated node the rest would be a
proper suffix of itself. -/
theorem IsChain.nodup {l : List ν} : ∀ {r : Option ν}, IsChain next r l → l.Nodup := by
  induction l with
  | nil =>
    intro r _
    exact List.nodup_nil
  | cons p l ih =>
    intro r h
    refine List.nodup_cons.mpr ⟨fun hp => ?_, ih h.2⟩
    obtain ⟨t, ht, hs⟩ := h.2.next_mem hp
    have hlt : t = l := ht.unique h.2
    have := hs.length_le
    rw [hlt, List.length_cons] at this
    omega

end LinkedChain
