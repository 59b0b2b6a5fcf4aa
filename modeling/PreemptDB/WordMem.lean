/-
Byte memory with 64-bit addresses, and stacks of words in it.

Addresses wrap around, so every fact is stated through the distance from one
address to another: `Span a n x` says that `x` is one of the `n` bytes from `a`
on.

* `load_store`, `load_store_of_disjoint` — reading back a word, and the frame
  rule;
* `Holds m a ws` — the words `ws` lie from `a` on, where `none` is a word of
  which nothing is known; `Holds.push` and `Holds.congr`.
-/
import Mathlib.Tactic

namespace WordMem

/-- Machine words, also used as addresses. -/
abbrev Word := BitVec 64

/-- Byte-addressed memory. -/
abbrev Mem := Word → BitVec 8

/-- Byte `k` of a word, the least significant one first. -/
def byteOf (v : Word) (k : ℕ) : BitVec 8 := v.extractLsb' (8 * k) 8

/-- The word at `a`, in little-endian order. -/
def load (m : Mem) (a : Word) : Word :=
  m (a + 7) ++ m (a + 6) ++ m (a + 5) ++ m (a + 4) ++ m (a + 3) ++ m (a + 2) ++ m (a + 1) ++ m a

/-- Write the word `v` at `a`. -/
def store (m : Mem) (a v : Word) : Mem :=
  fun x => if (x - a).toNat < 8 then byteOf v (x - a).toNat else m x

/-- `x` is one of the `n` bytes from `a` on. -/
def Span (a : Word) (n : ℕ) (x : Word) : Prop := (x - a).toNat < n

instance (a : Word) (n : ℕ) (x : Word) : Decidable (Span a n x) :=
  inferInstanceAs (Decidable ((x - a).toNat < n))

theorem byte_append_zero {w : ℕ} (x : BitVec w) (b : BitVec 8) :
    (x ++ b).extractLsb' (8 * 0) 8 = b := by
  refine BitVec.eq_of_getLsbD_eq fun i hi => ?_
  simp [BitVec.getLsbD_append, hi]

theorem byte_append_succ {w : ℕ} (x : BitVec w) (b : BitVec 8) (k : ℕ) :
    (x ++ b).extractLsb' (8 * (k + 1)) 8 = x.extractLsb' (8 * k) 8 := by
  refine BitVec.eq_of_getLsbD_eq fun i hi => ?_
  have hge : ¬ 8 * (k + 1) + i < 8 := by omega
  have hsub : 8 * (k + 1) + i - 8 = 8 * k + i := by omega
  simp [BitVec.getLsbD_append, hi, hge, hsub]

theorem byteOf_load (m : Mem) (a : Word) {k : ℕ} (hk : k < 8) :
    byteOf (load m a) k = m (a + BitVec.ofNat 64 k) := by
  rw [byteOf, load]
  rcases k with _ | _ | _ | _ | _ | _ | _ | _ | k
  case succ.succ.succ.succ.succ.succ.succ.succ => omega
  all_goals simp only [byte_append_succ, byte_append_zero]
  case zero => rw [BitVec.add_zero]
  case succ.succ.succ.succ.succ.succ.succ.zero => exact BitVec.extractLsb'_eq_self
  all_goals rfl

/-- Words with the same bytes are equal. -/
theorem word_ext {v w : Word} (h : ∀ k < 8, byteOf v k = byteOf w k) : v = w := by
  refine BitVec.eq_of_getLsbD_eq fun i hi => ?_
  have hbyte := congrArg (fun b => b.getLsbD (i % 8)) (h (i / 8) (by omega))
  have hmod : i % 8 < 8 := Nat.mod_lt _ (by omega)
  have hsplit : 8 * (i / 8) + i % 8 = i := Nat.div_add_mod i 8
  simpa [byteOf, hmod, hsplit] using hbyte

theorem span_add (a : Word) {k n : ℕ} (hk : k < n) (hn : n ≤ 2 ^ 64) :
    Span a n (a + BitVec.ofNat 64 k) := by
  rw [Span]
  bv_omega

theorem load_congr {m m' : Mem} {a : Word} (h : ∀ x, Span a 8 x → m x = m' x) :
    load m a = load m' a := by
  refine word_ext fun k hk => ?_
  rw [byteOf_load m a hk, byteOf_load m' a hk]
  exact h _ (span_add a hk (by omega))

/-- The bytes of a word decide it. -/
theorem load_eq_iff {m : Mem} {a v : Word} :
    load m a = v ↔ ∀ k < 8, m (a + BitVec.ofNat 64 k) = byteOf v k := by
  constructor
  · rintro rfl k hk
    exact (byteOf_load m a hk).symm
  · intro h
    refine word_ext fun k hk => ?_
    rw [byteOf_load m a hk, h k hk]

theorem store_of_not_span {m : Mem} {a v x : Word} (h : ¬ Span a 8 x) : store m a v x = m x :=
  if_neg h

/-- What was stored is read back. -/
theorem load_store (m : Mem) (a v : Word) : load (store m a v) a = v := by
  refine load_eq_iff.mpr fun k hk => ?_
  have hsub : (a + BitVec.ofNat 64 k - a).toNat = k := by bv_omega
  rw [store, hsub, if_pos hk]

/-- Writing a word that is there already. -/
theorem store_load (m : Mem) (a : Word) : store m a (load m a) = m := by
  funext x
  rw [store]
  split
  · next hx =>
    have hadd : a + BitVec.ofNat 64 (x - a).toNat = x := by bv_omega
    rw [byteOf_load m a hx, hadd]
  · rfl

/-- A store elsewhere does not change what is read. -/
theorem load_store_of_disjoint {m : Mem} {a b v : Word} (h : ∀ x, Span a 8 x → ¬ Span b 8 x) :
    load (store m b v) a = load m a :=
  load_congr fun x hx => store_of_not_span (h x hx)

/-- The words `ws` lie from `a` on, as far as they are known. -/
def Holds (m : Mem) : Word → List (Option Word) → Prop
  | _, [] => True
  | a, w :: ws => (∀ v ∈ w, load m a = v) ∧ Holds m (a + 8) ws

theorem Holds.congr {m m' : Mem} {a : Word} {ws : List (Option Word)}
    (hlen : 8 * ws.length ≤ 2 ^ 64) (h : ∀ x, Span a (8 * ws.length) x → m x = m' x)
    (hm : Holds m a ws) : Holds m' a ws := by
  induction ws generalizing a with
  | nil => trivial
  | cons w ws ih =>
    rw [List.length_cons] at hlen h
    refine ⟨fun v hv => ?_, ih (by omega) (fun x hx => h x ?_) hm.2⟩
    · rw [← hm.1 v hv]
      refine (load_congr fun x hx => h x ?_).symm
      rw [Span] at hx ⊢
      omega
    · rw [Span] at hx ⊢
      bv_omega

/-- A word pushed below a stack. -/
theorem Holds.push {m : Mem} {a : Word} {ws : List (Option Word)} (v : Word)
    (hlen : 8 * (ws.length + 1) ≤ 2 ^ 64) (hm : Holds m a ws) :
    Holds (store m (a - 8) v) (a - 8) (some v :: ws) := by
  refine ⟨fun w hw => ?_, ?_⟩
  · cases hw
    exact load_store m (a - 8) v
  rw [BitVec.sub_add_cancel]
  refine hm.congr (by omega) fun x hx => (store_of_not_span ?_).symm
  rw [Span] at hx ⊢
  bv_omega

/-- The known words of a stack, by their index. -/
theorem Holds.get {m : Mem} {a v : Word} {ws : List (Option Word)} {k : ℕ} (hm : Holds m a ws)
    (hk : ws[k]? = some (some v)) : load m (a + BitVec.ofNat 64 (8 * k)) = v := by
  induction ws generalizing a k with
  | nil => simp at hk
  | cons w ws ih =>
    cases k with
    | zero =>
      rw [List.getElem?_cons_zero, Option.some_inj] at hk
      simpa using hm.1 v (hk ▸ rfl)
    | succ k =>
      rw [List.getElem?_cons_succ] at hk
      have haddr : a + BitVec.ofNat 64 (8 * (k + 1)) = a + 8 + BitVec.ofNat 64 (8 * k) := by
        bv_omega
      rw [haddr]
      exact ih hm.2 hk

end WordMem
