/-
Where the ids of the contexts are.

The id of a context is in a bitmap, in the local word of a thread, or it belongs
to an XID.  A step moves ids from one place to another; none is ever at two places.
An id can get lost: with the local word of a thread that ends, and with a bit that
`xid_free` returns between the two halves of a swap.

* `Trip` — what a step does with an id;
* `Kept` — the steps in which no id is lost;
* `Trip.unique`, `Trip.exists`, `Trip.row_eq` — what follows for the places;
* one lemma for every kind of step.
-/
import PreemptDB.XidAlloc

namespace PreemptDB

open Function

namespace XidAlloc

variable {ι : Type*} {i j : ι} {s s' : State ι} {id e k : ℕ} {p q : Place ι}

/-- What a step does with an id; it loses it only if not `ok`. -/
inductive Trip (ok : Prop) (s s' : State ι) (id : ℕ) : Prop
  | stay (h : ∀ p, s'.At id p ↔ s.At id p)
  | move (p₀ p₁ : Place ι) (hrow : p₁.row = p₀.row) (h₀ : s.At id p₀) (h₁ : s'.At id p₁)
      (h : ∀ p, s'.At id p → p = p₁ ∨ s.At id p ∧ p ≠ p₀)
  | lost (hbad : ¬ ok) (h : ∀ p, s'.At id p → s.At id p)

theorem Trip.unique {ok : Prop} (t : Trip ok s s' id)
    (hu : ∀ p q, s.At id p → s.At id q → p = q) (p q : Place ι) (hp : s'.At id p)
    (hq : s'.At id q) : p = q := by
  cases t with
  | stay h => exact hu p q ((h p).mp hp) ((h q).mp hq)
  | lost _ h => exact hu p q (h p hp) (h q hq)
  | move p₀ p₁ _ h₀ _ h =>
    rcases h p hp with rfl | ⟨hp, hne⟩
    · rcases h q hq with rfl | ⟨hq, hne⟩
      · rfl
      · exact absurd (hu q p₀ hq h₀) hne
    · exact absurd (hu p p₀ hp h₀) hne

theorem Trip.exists {ok : Prop} (t : Trip ok s s' id) (hok : ok) (he : ∃ p, s.At id p) :
    ∃ p, s'.At id p := by
  cases t with
  | stay h =>
    obtain ⟨p, hp⟩ := he
    exact ⟨p, (h p).mpr hp⟩
  | move p₀ p₁ _ _ h₁ _ => exact ⟨p₁, h₁⟩
  | lost hbad _ => exact absurd hok hbad

/-- An id stays with its bitmap. -/
theorem Trip.row_eq {ok : Prop} (t : Trip ok s s' id) (hp : s'.At id p) :
    ∃ q, s.At id q ∧ q.row = p.row := by
  cases t with
  | stay h => exact ⟨p, (h p).mp hp, rfl⟩
  | lost _ h => exact ⟨p, h p hp, rfl⟩
  | move p₀ p₁ hrow h₀ _ h =>
    rcases h p hp with rfl | ⟨hp, -⟩
    · exact ⟨p₀, h₀, hrow.symm⟩
    · exact ⟨p, hp, rfl⟩

/-- A step that leaves the ids where they are, after another one. -/
theorem Trip.then_stay {ok : Prop} {m : State ι} (t : Trip ok s m id)
    (hstay : ∀ p, s'.At id p ↔ m.At id p) : Trip ok s s' id := by
  cases t with
  | stay h => exact .stay fun p => (hstay p).trans (h p)
  | move p₀ p₁ hrow h₀ h₁ h =>
    exact .move p₀ p₁ hrow h₀ ((hstay p₁).mpr h₁) fun p hp => h p ((hstay p).mp hp)
  | lost hbad h => exact .lost hbad fun p hp => h p ((hstay p).mp hp)

/-- A bit is not returned to a word in the middle of a swap. -/
def Pc.Lands (s : State ι) : Pc → Prop
  | .free x => ∀ j, (s.pc j).overwrites (x.epoch % nbitmaps) (wordOf x.localId) = false
  | _ => True

instance [Fintype ι] (s : State ι) : DecidablePred (Pc.Lands s)
  | .free x => inferInstanceAs
      (Decidable (∀ j, (s.pc j).overwrites (x.epoch % nbitmaps) (wordOf x.localId) = false))
  | .out | .initing | .head | .entering | .readWidx _ | .cas _ _ | .load _ _ | .store _ _ _
  | .leave | .leaving | .overflow _ | .overflowing _ | .lock _ | .test _ | .reset _ | .tryNew
  | .waitNew | .unlock | .claim _ | .exiting => isTrue trivial

/-- The steps in which no id is lost: a bit lands, and no thread ends with bits in its
local word. -/
def Kept (s : State ι) : Act ι → Prop
  | .exit i => (s.tls i).bitmap = ∅
  | .step i => (s.pc i).Lands s
  | .alloc _ | .free _ _ | .manager _ _ _ => True

instance [Fintype ι] (s : State ι) : DecidablePred (Kept s)
  | .exit i => inferInstanceAs (Decidable ((s.tls i).bitmap = ∅))
  | .step i => inferInstanceAs (Decidable ((s.pc i).Lands s))
  | .alloc _ | .free _ _ | .manager _ _ _ => isTrue trivial

/-- The program counter holds no id and covers no word. -/
def Pc.plain : Pc → Bool
  | .store _ _ _ | .claim _ | .free _ => false
  | _ => true

theorem Pc.overwrites_of_plain {c : Pc} (h : c.plain = true) (b k : ℕ) :
    c.overwrites b k = false := by
  cases c with
  | store _ _ _ => cases h
  | _ => rfl

theorem Pc.ne_claim_of_plain {c : Pc} (h : c.plain = true) (id : ℕ) : c ≠ .claim id := by
  rintro rfl
  cases h

theorem Pc.ne_free_of_plain {c : Pc} (h : c.plain = true) (x : Xid) : c ≠ .free x := by
  rintro rfl
  cases h

/-- The places of a thread. -/
def Place.thread : Place ι → Option ι
  | .word i _ | .claim i _ | .free i _ => some i
  | .bitmap _ | .live _ => none

/-- Only thread `i` moves. -/
structure Solo (i : ι) (s s' : State ι) : Prop where
  pc : ∀ j, j ≠ i → s'.pc j = s.pc j
  tls : ∀ j, j ≠ i → s'.tls j = s.tls j

theorem Solo.of_eq (hpc : s'.pc = s.pc) (htls : s'.tls = s.tls) : Solo i s s' :=
  ⟨fun _ _ => by rw [hpc], fun _ _ => by rw [htls]⟩

theorem Solo.at_iff (h : Solo i s s') (hj : p.thread = some j) (hne : j ≠ i) :
    s'.At id p ↔ s.At id p := by
  cases p with
  | bitmap b => cases hj
  | live e => cases hj
  | word l e =>
    cases hj
    rw [State.At, State.At, h.tls _ hne]
  | claim l e =>
    cases hj
    rw [State.At, State.At, h.tls _ hne, h.pc _ hne]
  | free l e =>
    cases hj
    rw [State.At, State.At, h.pc _ hne]

/-- The thread covers the same words as before. -/
theorem Solo.overwrites_iff (h : Solo i s s') {b k : ℕ}
    (hi : (s'.pc i).overwrites b k = (s.pc i).overwrites b k) :
    (∀ l, (s'.pc l).overwrites b k = false) ↔ ∀ l, (s.pc l).overwrites b k = false := by
  have heq : ∀ l, (s'.pc l).overwrites b k = (s.pc l).overwrites b k := by
    intro l
    by_cases hl : l = i
    · rw [hl, hi]
    · rw [h.pc l hl]
  simp only [heq]

/-- A place that is not of another thread. -/
def Place.Near (i : ι) (p : Place ι) : Prop := ∀ j, p.thread = some j → j = i

theorem Solo.at_iff_of_far (h : Solo i s s') (hp : ¬ p.Near i) : s'.At id p ↔ s.At id p := by
  obtain ⟨j, hj⟩ := not_forall.mp hp
  obtain ⟨hj, hne⟩ := Classical.not_imp.mp hj
  exact h.at_iff hj hne

/-- Only the places near the thread have to be looked at. -/
theorem Solo.at_iff_of_near (h : Solo i s s')
    (hnear : ∀ p : Place ι, p.Near i → (s'.At id p ↔ s.At id p)) (p : Place ι) :
    s'.At id p ↔ s.At id p := by
  by_cases hp : p.Near i
  · exact hnear p hp
  · exact h.at_iff_of_far hp

theorem Trip.stay_near {ok : Prop} (h : Solo i s s')
    (hnear : ∀ p : Place ι, p.Near i → (s'.At id p ↔ s.At id p)) : Trip ok s s' id :=
  .stay (h.at_iff_of_near hnear)

theorem Trip.move_near {ok : Prop} (h : Solo i s s') (p₀ p₁ : Place ι) (hp₀ : p₀.Near i)
    (hrow : p₁.row = p₀.row) (h₀ : s.At id p₀) (h₁ : s'.At id p₁)
    (hnear : ∀ p : Place ι, p.Near i → s'.At id p → p = p₁ ∨ s.At id p ∧ p ≠ p₀) :
    Trip ok s s' id := by
  refine .move p₀ p₁ hrow h₀ h₁ fun p hp => ?_
  by_cases hn : p.Near i
  · exact hnear p hn hp
  · refine .inr ⟨(h.at_iff_of_far hn).mp hp, ?_⟩
    rintro rfl
    exact hn hp₀

/-- The places in the bitmaps, when the thread covers no other words than before. -/
theorem Solo.bitmap_iff (h : Solo i s s') {b : ℕ}
    (hdata : id % bitsPerWord ∈ s'.data b (wordOf id) ↔ id % bitsPerWord ∈ s.data b (wordOf id))
    (hi : (s'.pc i).overwrites b (wordOf id) = (s.pc i).overwrites b (wordOf id)) :
    s'.At id (.bitmap b) ↔ s.At id (.bitmap b) := by
  rw [State.At, State.At, hdata, h.overwrites_iff hi]

/-- A step that touches no word and no XID. -/
theorem Solo.at_neutral (h : Solo i s s') (hdata : s'.data = s.data) (hlive : s'.live = s.live)
    (hi : (s.pc i).plain = true) (hi' : (s'.pc i).plain = true)
    (hword : ∀ e, s'.At id (.word i e) ↔ s.At id (.word i e)) (p : Place ι) :
    s'.At id p ↔ s.At id p := by
  refine h.at_iff_of_near (fun p hp => ?_) p
  cases p with
  | bitmap b =>
    refine h.bitmap_iff (by rw [hdata]) ?_
    rw [Pc.overwrites_of_plain hi, Pc.overwrites_of_plain hi']
  | live e => rw [State.At, State.At, hlive]
  | word l e =>
    obtain rfl := hp l rfl
    exact hword e
  | claim l e =>
    obtain rfl := hp l rfl
    exact iff_of_false (fun hc => Pc.ne_claim_of_plain hi' id hc.1)
      fun hc => Pc.ne_claim_of_plain hi id hc.1
  | free l e =>
    obtain rfl := hp l rfl
    exact iff_of_false (Pc.ne_free_of_plain hi' _) (Pc.ne_free_of_plain hi _)

theorem setWord_data (s : State ι) (b k : ℕ) (w : Finset ℕ) : (s.setWord b k w).data b k = w := by
  simp [State.setWord]

theorem setWord_data_of_ne (s : State ι) {b k b' k' : ℕ} (w : Finset ℕ) (h : ¬ (b' = b ∧ k' = k)) :
    (s.setWord b k w).data b' k' = s.data b' k' := by
  by_cases hb : b' = b
  · have hk : k' ≠ k := fun hk => h ⟨hb, hk⟩
    simp [State.setWord, hb, hk]
  · simp [State.setWord, hb]

section Steps

variable [DecidableEq ι]

@[simp] theorem goto_pc (s : State ι) (i : ι) (c : Pc) : (s.goto i c).pc i = c :=
  update_self _ _ _

@[simp] theorem goto_tls (s : State ι) (i : ι) (c : Pc) : (s.goto i c).tls = s.tls := rfl

@[simp] theorem setTls_self (s : State ι) (i : ι) (c : ContextData) : (s.setTls i c).tls i = c :=
  update_self _ _ _

theorem Solo.goto (h : Solo i s s') (c : Pc) : Solo i s (s'.goto i c) :=
  ⟨fun j hj => (update_of_ne hj _ _).trans (h.pc j hj), h.tls⟩

theorem Solo.setTls (h : Solo i s s') (c : ContextData) : Solo i s (s'.setTls i c) :=
  ⟨h.pc, fun j hj => (update_of_ne hj _ _).trans (h.tls j hj)⟩

/-- No word, no XID, and the thread's local word is as it was. -/
theorem at_goto {t : State ι} {c : Pc} (hpc : t.pc = s.pc) (htls : t.tls = s.tls)
    (hdata : t.data = s.data) (hlive : t.live = s.live) (hi : (s.pc i).plain = true)
    (hc : c.plain = true) (p : Place ι) : (t.goto i c).At id p ↔ s.At id p := by
  refine ((Solo.of_eq hpc htls).goto c).at_neutral hdata hlive hi ((goto_pc t i c).symm ▸ hc) ?_ p
  intro e
  rw [State.At, State.At, goto_tls, htls]

/-- New local data, when the old word and the new one are empty or do not count. -/
theorem at_setTls {d : ContextData} (hi : (s.pc i).plain = true)
    (hs : (s.tls i).initialized = true → (s.tls i).bitmap = ∅)
    (hd : d.initialized = true → d.bitmap = ∅) (p : Place ι) :
    (s.setTls i d).At id p ↔ s.At id p := by
  refine ((Solo.of_eq rfl rfl).setTls d).at_neutral rfl rfl hi hi (fun e => ?_) p
  refine iff_of_false ?_ ?_
  · rintro ⟨hinit, -, b, hb, -⟩
    rw [setTls_self] at hinit hb
    rw [hd hinit] at hb
    exact Finset.notMem_empty b hb
  · rintro ⟨hinit, -, b, hb, -⟩
    rw [hs hinit] at hb
    exact Finset.notMem_empty b hb

/-- The local word of a thread that ends is lost. -/
theorem at_of_end (p : Place ι)
    (hp : (s.setTls i { s.tls i with initialized := false }).At id p) : s.At id p := by
  have hsolo : Solo i s (s.setTls i { s.tls i with initialized := false }) :=
    (Solo.of_eq rfl rfl).setTls _
  by_cases hn : p.Near i
  · cases p with
    | bitmap b => exact hp
    | live e' => exact hp
    | word l e' =>
      obtain rfl := hn l rfl
      have hinit := hp.1
      rw [setTls_self] at hinit
      cases hinit
    | claim l e' =>
      obtain rfl := hn l rfl
      obtain ⟨hpc, he⟩ := hp
      rw [setTls_self] at he
      exact ⟨hpc, he⟩
    | free l e' => exact hp
  · exact (hsolo.at_iff_of_far hn).mp hp

section Swap

variable (hq : s.pc i = .load e k) (hinit : (s.tls i).initialized = true)
  (hempty : (s.tls i).bitmap = ∅) (hepoch : (s.tls i).epoch = e)
  (hbase : (s.tls i).baseId = baseOf e k) (hk : k < nwords)
  (hbits : s.data (e % nbitmaps) k ⊆ Finset.range bitsPerWord)
  (hcover : ∀ j, (s.pc j).overwrites (e % nbitmaps) k = false)

include hq hinit hempty hepoch hbase hk hbits hcover

/-- The first half of a swap moves the ids of the word to the thread. -/
theorem Trip.load {ok : Prop} (hid : id < ncontexts) : Trip ok s
    ((s.setTls i { s.tls i with bitmap := s.data (e % nbitmaps) k }).goto i
      (.store e k (s.tls i).bitmap)) id := by
  set s' := (s.setTls i { s.tls i with bitmap := s.data (e % nbitmaps) k }).goto i
    (.store e k (s.tls i).bitmap)
  have hsolo : Solo i s s' := ((Solo.of_eq rfl rfl).setTls _).goto _
  have hq' : s'.pc i = .store e k (s.tls i).bitmap := goto_pc _ i _
  have htls : s'.tls i = { s.tls i with bitmap := s.data (e % nbitmaps) k } := setTls_self _ _ _
  -- the other words are not covered
  have hother : ∀ {b : ℕ}, ¬ (b = e % nbitmaps ∧ wordOf id = k) →
      (s'.At id (.bitmap b) ↔ s.At id (.bitmap b)) := fun {b} hne => by
    refine hsolo.bitmap_iff Iff.rfl ?_
    rw [hq, hq']
    simp only [Pc.overwrites, Bool.and_eq_false_iff, decide_eq_false_iff_not]
    by_contra hboth
    rw [not_or, not_not, not_not] at hboth
    exact hne ⟨hboth.1.symm, hboth.2.symm⟩
  -- this word is
  have hgone : wordOf id = k → ¬ s'.At id (.bitmap (e % nbitmaps)) := fun hw hat => by
    have := hat.2.2.2 i
    rw [hq', hw] at this
    simp [Pc.overwrites] at this
  -- the ids of this word and no others are in the local word
  have hword : s'.At id (.word i e) ↔ s.At id (.bitmap (e % nbitmaps)) ∧ wordOf id = k := by
    constructor
    · rintro ⟨-, -, b, hb, hid'⟩
      rw [htls] at hb hid'
      have hlt : b < bitsPerWord := Finset.mem_range.mp (hbits hb)
      obtain ⟨-, hhalf, hw, hmod⟩ := baseOf_add (e := e) hk hlt
      rw [hbase] at hid'
      rw [hid'] at hhalf hw hmod
      refine ⟨⟨Nat.mod_lt _ (by decide), ?_, ?_, ?_⟩, hw⟩
      · rw [hhalf, mod_nbitmaps]
      · rw [hmod, hw]
        exact hb
      · rw [hw]
        exact hcover
    · rintro ⟨⟨-, hhalf, hmem, -⟩, hw⟩
      refine ⟨by rw [htls]; exact hinit, by rw [htls]; exact hepoch, id % bitsPerWord, ?_, ?_⟩
      · rw [htls, ← hw]
        exact hmem
      · rw [htls]
        show (s.tls i).baseId + _ = id
        rw [hbase, ← hw]
        exact eq_baseOf_add hid (by rw [← mod_nbitmaps, hhalf])
  have hempty' : ∀ e', ¬ s.At id (.word i e') := by
    rintro e' ⟨-, -, b, hb, -⟩
    rw [hempty] at hb
    exact Finset.notMem_empty b hb
  have hepoch' : ∀ {e'}, s'.At id (.word i e') → e' = e := by
    rintro e' ⟨-, he, -⟩
    rw [htls] at he
    exact he.symm.trans hepoch
  by_cases hin : s.At id (.bitmap (e % nbitmaps)) ∧ wordOf id = k
  · refine .move_near hsolo (.bitmap (e % nbitmaps)) (.word i e) (fun j hj => by cases hj) rfl
      hin.1 (hword.mpr hin) fun p hp hat => ?_
    cases p with
    | bitmap b =>
      have hb : b ≠ e % nbitmaps := by
        rintro rfl
        exact hgone hin.2 hat
      exact .inr ⟨(hother fun h => hb h.1).mp hat, fun h => hb (Place.bitmap.inj h)⟩
    | live e' => exact .inr ⟨hat, nofun⟩
    | word l e' =>
      obtain rfl := hp l rfl
      exact .inl (by rw [hepoch' hat])
    | claim l e' =>
      obtain rfl := hp l rfl
      rw [State.At, hq'] at hat
      cases hat.1
    | free l e' =>
      obtain rfl := hp l rfl
      rw [State.At, hq'] at hat
      cases hat
  · refine .stay_near hsolo fun p hp => ?_
    cases p with
    | bitmap b =>
      by_cases hb : b = e % nbitmaps ∧ wordOf id = k
      · obtain ⟨rfl, hw⟩ := hb
        exact iff_of_false (hgone hw) fun hat => hin ⟨hat, hw⟩
      · exact hother hb
    | live e' => exact Iff.rfl
    | word l e' =>
      obtain rfl := hp l rfl
      refine iff_of_false (fun hat => ?_) (hempty' e')
      obtain rfl := hepoch' hat
      exact hin (hword.mp hat)
    | claim l e' | free l e' =>
      obtain rfl := hp l rfl
      simp [State.At, hq, hq']

end Swap

/-- The second half of a swap stores an empty word. -/
theorem Trip.store {ok : Prop} (hq : s.pc i = .store e k ∅) :
    Trip ok s ((s.setWord (e % nbitmaps) k ∅).goto i .leave) id := by
  set s' := (s.setWord (e % nbitmaps) k ∅).goto i .leave
  have hsolo : Solo i s s' := by
    refine Solo.goto ?_ _
    exact Solo.of_eq rfl rfl
  have hq' : s'.pc i = .leave := goto_pc _ i _
  refine .stay_near hsolo fun p hp => ?_
  cases p with
  | bitmap b =>
    by_cases hb : b = e % nbitmaps ∧ wordOf id = k
    · obtain ⟨rfl, hw⟩ := hb
      refine iff_of_false (fun hat => ?_) fun hat => ?_
      · have hmem := hat.2.2.1
        rw [hw] at hmem
        change _ ∈ (s.setWord (e % nbitmaps) k ∅).data (e % nbitmaps) k at hmem
        rw [setWord_data] at hmem
        exact Finset.notMem_empty _ hmem
      · have hcover := hat.2.2.2 i
        rw [hq, hw] at hcover
        simp [Pc.overwrites] at hcover
    · refine hsolo.bitmap_iff ?_ ?_
      · change _ ∈ (s.setWord (e % nbitmaps) k ∅).data b (wordOf id) ↔ _
        rw [setWord_data_of_ne s ∅ hb]
      · rw [hq, hq']
        have hne : ¬ (e % nbitmaps = b ∧ k = wordOf id) := fun h => hb ⟨h.1.symm, h.2.symm⟩
        simp only [Pc.overwrites]
        rw [eq_comm, Bool.and_eq_false_iff, decide_eq_false_iff_not, decide_eq_false_iff_not]
        exact not_and_or.mp hne
  | live e' => exact Iff.rfl
  | word l e' => exact Iff.rfl
  | claim l e' | free l e' =>
    obtain rfl := hp l rfl
    simp [State.At, hq, hq']

/-- `take_one` takes one id from the local word. -/
theorem Trip.takeOne {ok : Prop} (hq : s.pc i = .head) (hinit : (s.tls i).initialized = true)
    (hne : (s.tls i).bitmap.Nonempty) : Trip ok s (s.takeOne i hne) id := by
  set b := (s.tls i).bitmap.min' hne with hb
  set s' := s.takeOne i hne
  have hmem : b ∈ (s.tls i).bitmap := Finset.min'_mem _ _
  have hsolo : Solo i s s' := ((Solo.of_eq rfl rfl).setTls _).goto _
  have hq' : s'.pc i = .claim ((s.tls i).baseId + b) := goto_pc _ i _
  have htls : s'.tls i = { s.tls i with bitmap := (s.tls i).bitmap.erase b } := setTls_self _ _ _
  have hbitmap : ∀ b', s'.At id (.bitmap b') ↔ s.At id (.bitmap b') := fun b' => by
    refine hsolo.bitmap_iff Iff.rfl ?_
    rw [hq, hq']
    rfl
  by_cases hid : (s.tls i).baseId + b = id
  · refine .move_near hsolo (.word i (s.tls i).epoch) (.claim i (s.tls i).epoch)
      (fun j hj => (Option.some_inj.mp hj).symm) rfl ⟨hinit, rfl, b, hmem, hid⟩
      ⟨by rw [hq', hid], by rw [htls]⟩ fun p hp hat => ?_
    cases p with
    | bitmap b' => exact .inr ⟨(hbitmap b').mp hat, nofun⟩
    | live e' => exact .inr ⟨hat, nofun⟩
    | word l e' =>
      obtain rfl := hp l rfl
      obtain ⟨-, -, b', hb', hid'⟩ := hat
      rw [htls] at hb' hid'
      have : b' = b := Nat.add_left_cancel (hid'.trans hid.symm)
      exact absurd this (Finset.ne_of_mem_erase hb')
    | claim l e' =>
      obtain rfl := hp l rfl
      obtain ⟨-, he⟩ := hat
      rw [htls] at he
      exact .inl (by rw [← he])
    | free l e' =>
      obtain rfl := hp l rfl
      rw [State.At, hq'] at hat
      cases hat
  · refine .stay_near hsolo fun p hp => ?_
    cases p with
    | bitmap b' => exact hbitmap b'
    | live e' => exact Iff.rfl
    | word l e' =>
      obtain rfl := hp l rfl
      rw [State.At, State.At, htls]
      refine and_congr_right fun _ => and_congr_right fun _ => ?_
      constructor
      · rintro ⟨b', hb', hid'⟩
        exact ⟨b', Finset.mem_of_mem_erase hb', hid'⟩
      · rintro ⟨b', hb', hid'⟩
        refine ⟨b', Finset.mem_erase.mpr ⟨?_, hb'⟩, hid'⟩
        rintro rfl
        exact hid hid'
    | claim l e' =>
      obtain rfl := hp l rfl
      rw [State.At, State.At, hq, hq']
      exact iff_of_false (fun h => hid (Pc.claim.inj h.1)) fun h => by cases h.1
    | free l e' =>
      obtain rfl := hp l rfl
      rw [State.At, State.At, hq, hq']
      exact iff_of_false nofun nofun

/-- The XID is issued. -/
theorem Trip.issue {ok : Prop} {n : ℕ} (hq : s.pc i = .claim n) : Trip ok s (s.issue i n) id := by
  set s' := s.issue i n
  have hsolo : Solo i s s' := by
    refine Solo.goto ?_ _
    exact Solo.of_eq rfl rfl
  have hq' : s'.pc i = .out := goto_pc _ i _
  have hlive : s'.live = Insert.insert ⟨(s.tls i).epoch, n⟩ s.live := rfl
  have hbitmap : ∀ b', s'.At id (.bitmap b') ↔ s.At id (.bitmap b') := fun b' => by
    refine hsolo.bitmap_iff Iff.rfl ?_
    rw [hq, hq']
    rfl
  by_cases hid : n = id
  · subst hid
    refine .move_near hsolo (.claim i (s.tls i).epoch) (.live (s.tls i).epoch)
      (fun j hj => (Option.some_inj.mp hj).symm) rfl ⟨hq, rfl⟩ ?_ fun p hp hat => ?_
    · rw [State.At, hlive]
      exact Finset.mem_insert_self _ _
    cases p with
    | bitmap b' => exact .inr ⟨(hbitmap b').mp hat, nofun⟩
    | live e' =>
      rw [State.At, hlive, Finset.mem_insert] at hat
      rcases hat with heq | hat
      · exact .inl (by cases heq; rfl)
      · exact .inr ⟨hat, nofun⟩
    | word l e' => exact .inr ⟨hat, nofun⟩
    | claim l e' =>
      obtain rfl := hp l rfl
      rw [State.At, hq'] at hat
      cases hat.1
    | free l e' =>
      obtain rfl := hp l rfl
      rw [State.At, hq'] at hat
      cases hat
  · refine .stay_near hsolo fun p hp => ?_
    cases p with
    | bitmap b' => exact hbitmap b'
    | live e' =>
      rw [State.At, State.At, hlive, Finset.mem_insert]
      exact or_iff_right fun heq => hid (congrArg Xid.localId heq).symm
    | word l e' => exact Iff.rfl
    | claim l e' =>
      obtain rfl := hp l rfl
      rw [State.At, State.At, hq, hq']
      exact iff_of_false (fun h => by cases h.1) fun h => hid (Pc.claim.inj h.1)
    | free l e' =>
      obtain rfl := hp l rfl
      rw [State.At, State.At, hq, hq']
      exact iff_of_false nofun nofun

/-- `xid_free` begins. -/
theorem Trip.free {ok : Prop} {x : Xid} (hq : s.pc i = .out) (hx : x ∈ s.live)
    (t : State ι) (hpc : t.pc = s.pc) (htls : t.tls = s.tls) (hdata : t.data = s.data)
    (hlive : t.live = s.live.erase x) : Trip ok s (t.goto i (.free x)) id := by
  set s' := t.goto i (.free x)
  have hsolo : Solo i s s' := (Solo.of_eq hpc htls).goto _
  have hq' : s'.pc i = .free x := goto_pc _ i _
  have hlive' : s'.live = s.live.erase x := hlive
  have hbitmap : ∀ b', s'.At id (.bitmap b') ↔ s.At id (.bitmap b') := fun b' => by
    refine hsolo.bitmap_iff ?_ ?_
    · change _ ∈ t.data _ _ ↔ _
      rw [hdata]
    · rw [hq, hq']
      rfl
  have hword : ∀ l e', s'.At id (.word l e') ↔ s.At id (.word l e') := fun l e' => by
    have htls' : s'.tls = s.tls := htls
    rw [State.At, State.At, htls']
  by_cases hid : x.localId = id
  · subst hid
    refine .move_near hsolo (.live x.epoch) (.free i x.epoch) (fun j hj => by cases hj) rfl hx hq'
      fun p hp hat => ?_
    cases p with
    | bitmap b' => exact .inr ⟨(hbitmap b').mp hat, nofun⟩
    | live e' =>
      rw [State.At, hlive', Finset.mem_erase] at hat
      refine .inr ⟨hat.2, fun h => ?_⟩
      cases h
      exact hat.1 rfl
    | word l e' => exact .inr ⟨(hword l e').mp hat, nofun⟩
    | claim l e' =>
      obtain rfl := hp l rfl
      rw [State.At, hq'] at hat
      cases hat.1
    | free l e' =>
      obtain rfl := hp l rfl
      rw [State.At, hq'] at hat
      exact .inl (by rw [Pc.free.inj hat])
  · refine .stay_near hsolo fun p hp => ?_
    cases p with
    | bitmap b' => exact hbitmap b'
    | live e' =>
      rw [State.At, State.At, hlive', Finset.mem_erase]
      exact and_iff_right fun heq => hid (congrArg Xid.localId heq).symm
    | word l e' => exact hword l e'
    | claim l e' =>
      obtain rfl := hp l rfl
      rw [State.At, State.At, hq, hq']
      exact iff_of_false (fun h => by cases h.1) fun h => by cases h.1
    | free l e' =>
      obtain rfl := hp l rfl
      rw [State.At, State.At, hq, hq']
      refine iff_of_false (fun h => ?_) nofun
      exact hid (congrArg Xid.localId (Pc.free.inj h))

/-- `xid_free` returns the bit; it is lost if a thread is about to store an empty word. -/
theorem Trip.giveBack {x : Xid} (hq : s.pc i = .free x) (hx : x.localId < ncontexts)
    (hhalf : x.localId / (ncontexts / 2) = x.epoch % 2) (hid : id < ncontexts) :
    Trip (Kept s (.step i)) s (s.giveBack i (toPtr x)) id := by
  set s' := s.giveBack i (toPtr x)
  have hsolo : Solo i s s' := by
    refine Solo.goto ?_ _
    exact Solo.of_eq rfl rfl
  have hq' : s'.pc i = .out := goto_pc _ i _
  have hdata : s'.data = (s.setWord (x.epoch % nbitmaps) (wordOf x.localId)
      (Insert.insert (x.localId % bitsPerWord)
        (s.data (x.epoch % nbitmaps) (wordOf x.localId)))).data := by
    rw [← epoch_toPtr_mod hx, ← localId_toPtr hx]
    rfl
  have hcover : ∀ b k', (s'.pc i).overwrites b k' = (s.pc i).overwrites b k' := fun b k' => by
    rw [hq, hq']
    rfl
  have hclaim : ∀ l e', Place.Near i (.claim l e') →
      (s'.At id (.claim l e') ↔ s.At id (.claim l e')) := fun l e' hp => by
    obtain rfl := hp l rfl
    rw [State.At, State.At, hq, hq']
    exact iff_of_false (fun h => by cases h.1) fun h => by cases h.1
  -- the other bits of the bitmaps
  have hbits : ∀ b, (id = x.localId → b ≠ x.epoch % nbitmaps) → b % 2 = id / (ncontexts / 2) →
      (id % bitsPerWord ∈ s'.data b (wordOf id) ↔ id % bitsPerWord ∈ s.data b (wordOf id)) := by
    intro b hne hb
    rw [hdata]
    by_cases hw : b = x.epoch % nbitmaps ∧ wordOf id = wordOf x.localId
    · obtain ⟨rfl, hw⟩ := hw
      rw [hw, setWord_data, Finset.mem_insert]
      refine or_iff_right fun hmod => hne ?_ rfl
      rw [mod_nbitmaps] at hb
      rw [← eq_baseOf_add hid hb, hw, hmod]
      exact eq_baseOf_add hx hhalf.symm
    · rw [setWord_data_of_ne _ _ hw]
  have hbitmap : ∀ b, (id = x.localId → b ≠ x.epoch % nbitmaps) →
      (s'.At id (.bitmap b) ↔ s.At id (.bitmap b)) := by
    intro b hne
    rw [State.At, State.At, hsolo.overwrites_iff (hcover _ _)]
    refine and_congr_right fun _ => and_congr_right fun hb => and_congr_left fun _ => ?_
    exact hbits b hne hb
  by_cases heq : id = x.localId
  · subst heq
    by_cases hfree : ∀ j, (s.pc j).overwrites (x.epoch % nbitmaps) (wordOf x.localId) = false
    · refine .move_near hsolo (.free i x.epoch) (.bitmap (x.epoch % nbitmaps))
        (fun j hj => (Option.some_inj.mp hj).symm) rfl hq ?_ fun p hp hat => ?_
      · refine ⟨Nat.mod_lt _ (by decide), by rw [hhalf, mod_nbitmaps], ?_,
          (hsolo.overwrites_iff (hcover _ _)).mpr hfree⟩
        rw [hdata, setWord_data]
        exact Finset.mem_insert_self _ _
      cases p with
      | bitmap b =>
        by_cases hb : b = x.epoch % nbitmaps
        · exact .inl (by rw [hb])
        · exact .inr ⟨(hbitmap b fun _ => hb).mp hat, nofun⟩
      | live _ | word _ _ => exact .inr ⟨hat, nofun⟩
      | claim l e' => exact .inr ⟨(hclaim l e' hp).mp hat, nofun⟩
      | free l e' =>
        obtain rfl := hp l rfl
        rw [State.At, hq'] at hat
        cases hat
    · refine .lost ?_ fun p hat => ?_
      · intro hkept
        rw [Kept, hq] at hkept
        exact hfree hkept
      · by_cases hp : p.Near i
        · cases p with
          | bitmap b =>
            refine (hbitmap b fun _ => ?_).mp hat
            rintro rfl
            exact hfree ((hsolo.overwrites_iff (hcover _ _)).mp hat.2.2.2)
          | live e' => exact hat
          | word l e' => exact hat
          | claim l e' => exact (hclaim l e' hp).mp hat
          | free l e' =>
            obtain rfl := hp l rfl
            rw [State.At, hq'] at hat
            cases hat
        · exact (hsolo.at_iff_of_far hp).mp hat
  · refine .stay_near hsolo fun p hp => ?_
    cases p with
    | bitmap b => exact hbitmap b fun h => absurd h heq
    | live e' => exact Iff.rfl
    | word l e' => exact Iff.rfl
    | claim l e' => exact hclaim l e' hp
    | free l e' =>
      obtain rfl := hp l rfl
      rw [State.At, State.At, hq, hq']
      refine iff_of_false nofun fun h => ?_
      exact heq (congrArg Xid.localId (Pc.free.inj h)).symm

end Steps

end XidAlloc

end PreemptDB
