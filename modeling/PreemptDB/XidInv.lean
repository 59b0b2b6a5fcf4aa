/-
The invariant of the XID allocator.

A thread inside a region of the epoch manager is at most two epochs behind.  The
four bitmaps then keep the words of different epochs apart: nobody takes a word
twice in an epoch, and the id of a context that is issued again gets an epoch that
is later by four.

* `Thread` — what holds for a thread;
* `Inv` — the invariant;
* `Others` — what a thread relies on while another one takes a step;
* `Inv.step` — every step keeps the invariant, and moves the ids as `Trip` says.
-/
import PreemptDB.XidPlaces

namespace PreemptDB

namespace XidAlloc

variable {ι : Type*} {i j : ι} {s s' : State ι} {id e k : ℕ}

theorem xid_eq {x y : Xid} (he : x.epoch = y.epoch) (hid : x.localId = y.localId) : x = y := by
  cases x
  cases y
  cases he
  cases hid
  rfl

/-- The function of the epoch manager in which a thread is. -/
def Pc.call : Pc → Option (Option Epoch.Duty)
  | .initing => some (some .init)
  | .entering | .leaving | .overflowing _ => some none
  | .waitNew => some (some .new)
  | .exiting => some (some .fini)
  | _ => none

def InCall (p : Epoch.Pc ι) : Option (Option Epoch.Duty) → Prop
  | none => p = .idle
  | some d => p.duty = d ∨ p.duty = none

/-- The thread is in `xid_alloc`. -/
def Pc.running : Pc → Bool
  | .out | .free _ | .exiting => false
  | _ => true

/-- The thread has a word or an id of its own. -/
def Pc.holding : Pc → Bool
  | .load _ _ | .store _ _ _ | .claim _ => true
  | _ => false

/-- The local data are those of word `k`. -/
structure Holds (s : State ι) (i : ι) (k : ℕ) : Prop where
  lt : k < nwords
  base : (s.tls i).baseId = baseOf (s.tls i).epoch k
  taken : ((s.tls i).epoch, k) ∈ s.taken

/-- The local data are in use. -/
def Uses (s : State ι) (i : ι) : Prop :=
  ((s.tls i).initialized = true ∧ (s.tls i).bitmap.Nonempty) ∨ (s.pc i).holding = true

/-- The id was last issued in another round of the bitmaps. -/
def Old (s : State ι) (e id : ℕ) : Prop := ∀ x ∈ s.issued, x.localId = id → x.epoch + 4 ≤ e

/-- Nothing has been issued from the word. -/
def Fresh (s : State ι) (e k : ℕ) : Prop := ∀ x ∈ s.issued, x.epoch = e → wordOf x.localId ≠ k

/-- A thread swaps its local word with word `k`. -/
structure Swapping (s : State ι) (i : ι) (e k : ℕ) : Prop where
  region : s.epochs.region i = some e
  epoch : (s.tls i).epoch = e
  holds : Holds s i k
  fresh : Fresh s e k

def Role (s : State ι) (i : ι) : Pc → Prop
  | .entering => (s.tls i).bitmap = ∅
  | .readWidx e | .overflow e => (s.tls i).bitmap = ∅ ∧ s.epochs.region i = some e
  | .cas e k => ((s.tls i).bitmap = ∅ ∧ s.epochs.region i = some e) ∧ k < nwords
  | .load e k => (s.tls i).bitmap = ∅ ∧ Swapping s i e k
  | .store e k tmp => tmp = ∅ ∧ Swapping s i e k
  | .overflowing _ | .lock _ => i ∈ s.epochs.contexts
  | .test _ => s.mutex = some i ∧ i ∈ s.epochs.contexts
  | .reset e => s.mutex = some i ∧ i ∈ s.epochs.contexts ∧ e = s.epochs.beginEpoch
  | .tryNew | .waitNew | .unlock => s.mutex = some i
  | .claim id =>
    (∃ k b, b < bitsPerWord ∧ Holds s i k ∧ id = (s.tls i).baseId + b) ∧
      Old s (s.tls i).epoch id
  | .free x => x ∈ s.issued
  | .out | .initing | .head | .leave | .leaving | .exiting => True

/-- What holds for a thread. -/
structure Thread (s : State ι) (i : ι) : Prop where
  call : InCall (s.epochs.pc i) (s.pc i).call
  init : (s.pc i).running = true → (s.tls i).initialized = true
  bits : (s.tls i).initialized = true → ∀ b ∈ (s.tls i).bitmap,
    b < bitsPerWord ∧ (∃ k, Holds s i k) ∧ Old s (s.tls i).epoch ((s.tls i).baseId + b)
  role : Role s i (s.pc i)

theorem Thread.call_eq {s : State ι} {i : ι} (h : Thread s i) {q q' : Pc} (hq : s.pc i = q)
    (hc : q.call = q'.call) : InCall (s.epochs.pc i) q'.call := by
  rw [← hc, ← hq]
  exact h.call

/-- The allocator: the words that were taken are below `widx` while their epoch can be
in use, and the ids are at one place, which goes with the bitmap of their XIDs. -/
structure Inv (s : State ι) : Prop where
  manager : ∃ ph fl, Epoch.Inv s.epochs ph fl
  thread : ∀ i, Thread s i
  holds : ∀ i j k, Uses s i → Uses s j → Holds s i k → Holds s j k →
    (s.tls i).epoch = (s.tls j).epoch → i = j
  taken : ∀ e k, (e, k) ∈ s.taken → e ≤ s.epochs.beginEpoch ∧
    (s.epochs.beginEpoch ≤ e + 2 → k < s.widx (e % nbitmaps))
  issued : ∀ x ∈ s.issued, x.localId < ncontexts ∧ x.localId / (ncontexts / 2) = x.epoch % 2 ∧
    (x.epoch, wordOf x.localId) ∈ s.taken
  spaced : s.issued.Pairwise fun x y => x.localId = y.localId → x.epoch + 4 ≤ y.epoch
  live : ∀ x ∈ s.live, x ∈ s.issued ∧ s.owner x.localId = some (toPtr x) ∧
    ∀ y ∈ s.issued, y.localId = x.localId → y = x ∨ y.epoch + 4 ≤ x.epoch
  owner : ∀ id o, s.owner id = some o → ∃ x ∈ s.live, x.localId = id ∧ o = toPtr x
  bits : ∀ b k, s.data b k ⊆ Finset.range bitsPerWord
  unique : ∀ id < ncontexts, ∀ p q, s.At id p → s.At id q → p = q
  rows : ∀ id < ncontexts, ∀ p, s.At id p → ∀ x ∈ s.issued, x.localId = id →
    x.epoch % nbitmaps = p.row

/-- The regions of the threads are close together. -/
theorem Inv.near (h : Inv s) (hr : s.epochs.region i = some e) :
    e ≤ s.epochs.beginEpoch ∧ s.epochs.beginEpoch ≤ e + 2 := by
  obtain ⟨ph, fl, hm⟩ := h.manager
  exact hm.lag hr

theorem Inv.swapping (h : Inv s) {c : Pc} (hq : s.pc i = c)
    (hc : c.overwrites (e % nbitmaps) k = true) :
    ∃ e', e' % nbitmaps = e % nbitmaps ∧ Swapping s i e' k := by
  have hrole := (h.thread i).role
  rw [hq] at hrole
  cases c with
  | store e' k' tmp =>
    simp only [Pc.overwrites, Bool.and_eq_true, decide_eq_true_iff] at hc
    obtain ⟨he, rfl⟩ := hc
    exact ⟨e', he, hrole.2⟩
  | _ => cases hc

/-- Two threads do not swap with the same word. -/
theorem Inv.not_overwrites (h : Inv s) (hq : s.pc i = .load e k) (j : ι) :
    (s.pc j).overwrites (e % nbitmaps) k = false := by
  have hrole := (h.thread i).role
  rw [hq] at hrole
  obtain ⟨-, hi⟩ : _ ∧ Swapping s i e k := hrole
  by_contra hc
  rw [Bool.not_eq_false] at hc
  obtain ⟨e', he, hj⟩ := h.swapping rfl hc
  have heq : e' = e := by
    have hi' := h.near hi.region
    have hj' := h.near hj.region
    rw [show nbitmaps = 4 from rfl] at he
    omega
  subst heq
  have hhold : (s.pc j).holding = true := by
    cases hpc : s.pc j with
    | store _ _ _ => rfl
    | _ => rw [hpc] at hc; cases hc
  have hij : i = j := h.holds i j k (.inr (by rw [hq]; rfl)) (.inr hhold) hi.holds hj.holds
    (hi.epoch.trans hj.epoch.symm)
  rw [← hij, hq] at hc
  cases hc

/-- The ids of a word that is loaded were last issued four epochs ago. -/
theorem Inv.old_of_load (h : Inv s) (hq : s.pc i = .load e k) {b : ℕ}
    (hb : b ∈ s.data (e % nbitmaps) k) : Old s e (baseOf e k + b) := by
  have hrole := (h.thread i).role
  rw [hq] at hrole
  obtain ⟨-, hi⟩ : _ ∧ Swapping s i e k := hrole
  have hlt : b < bitsPerWord := Finset.mem_range.mp (h.bits _ _ hb)
  obtain ⟨hid, hhalf, hw, hmod⟩ := baseOf_add (e := e) hi.holds.lt hlt
  intro x hx hxid
  have hat : s.At (baseOf e k + b) (.bitmap (e % nbitmaps)) := by
    refine ⟨Nat.mod_lt _ (by decide), by rw [hhalf, mod_nbitmaps], ?_, ?_⟩
    · rw [hmod, hw]
      exact hb
    · rw [hw]
      exact h.not_overwrites hq
  have hrow : x.epoch % nbitmaps = e % nbitmaps := h.rows _ hid _ hat x hx hxid
  have hne : x.epoch ≠ e := fun heq => hi.fresh x hx heq (by rw [hxid, hw])
  have hle := (h.taken _ _ (h.issued x hx).2.2).1
  have hnear := h.near hi.region
  rw [show nbitmaps = 4 from rfl] at hrow
  omega

/-- A thread that another one leaves alone.  An XID that is issued meanwhile has none of
its ids. -/
structure Others (j : ι) (s s' : State ι) : Prop where
  pc : s'.pc j = s.pc j
  tls : s'.tls j = s.tls j
  callPc : s'.epochs.pc j = s.epochs.pc j
  region : s'.epochs.region j = s.epochs.region j
  mem : j ∈ s.epochs.contexts → j ∈ s'.epochs.contexts
  epoch : ∀ e, s.pc j = .reset e → s'.epochs.beginEpoch = s.epochs.beginEpoch
  mutex : s.mutex = some j → s'.mutex = some j
  taken : s.taken ⊆ s'.taken
  issued : s.issued ⊆ s'.issued
  foreign : ∀ x ∈ s'.issued, x ∈ s.issued ∨
    (∀ e, ¬ s.At x.localId (.word j e)) ∧ (∀ e, ¬ s.At x.localId (.claim j e)) ∧
      (Uses s j → ∀ k, Holds s j k → (s.tls j).epoch = x.epoch → wordOf x.localId ≠ k)

theorem Others.holds (o : Others j s s') (h : Holds s j k) : Holds s' j k :=
  ⟨h.lt, by rw [o.tls, h.base], by rw [o.tls]; exact o.taken h.taken⟩

theorem Others.swapping (o : Others j s s') (hu : Uses s j) (h : Swapping s j e k) :
    Swapping s' j e k := by
  refine ⟨o.region.trans h.region, by rw [o.tls]; exact h.epoch, o.holds h.holds, ?_⟩
  intro x hx he
  rcases o.foreign x hx with hx | ⟨-, -, hx⟩
  · exact h.fresh x hx he
  · exact hx hu k h.holds (h.epoch.trans he.symm)

theorem Others.old_word (o : Others j s s') {b : ℕ} (hinit : (s.tls j).initialized = true)
    (hb : b ∈ (s.tls j).bitmap) (h : Old s (s.tls j).epoch ((s.tls j).baseId + b)) :
    Old s' (s.tls j).epoch ((s.tls j).baseId + b) := by
  intro x hx hxid
  rcases o.foreign x hx with hx | ⟨hx, -, -⟩
  · exact h x hx hxid
  · exact absurd ⟨hinit, rfl, b, hb, hxid.symm⟩ (hx (s.tls j).epoch)

theorem Others.old_claim (o : Others j s s') (hq : s.pc j = .claim id)
    (h : Old s (s.tls j).epoch id) : Old s' (s.tls j).epoch id := by
  intro x hx hxid
  rcases o.foreign x hx with hx | ⟨-, hx, -⟩
  · exact h x hx hxid
  · exact absurd ⟨by rw [hq, hxid], rfl⟩ (hx (s.tls j).epoch)

theorem Role.others (o : Others j s s') (h : Role s j (s.pc j)) : Role s' j (s'.pc j) := by
  rw [o.pc]
  generalize hq : s.pc j = q at h ⊢
  cases q with
  | entering =>
    rw [Role, o.tls]
    exact h
  | readWidx e | overflow e | cas e k =>
    rw [Role, o.tls, o.region]
    exact h
  | load e k =>
    exact ⟨by rw [o.tls]; exact h.1, o.swapping (.inr (by rw [hq]; rfl)) h.2⟩
  | store e k tmp =>
    exact ⟨h.1, o.swapping (.inr (by rw [hq]; rfl)) h.2⟩
  | overflowing e | lock e =>
    exact o.mem h
  | test e =>
    exact ⟨o.mutex h.1, o.mem h.2⟩
  | reset e =>
    exact ⟨o.mutex h.1, o.mem h.2.1, h.2.2.trans (o.epoch e hq).symm⟩
  | tryNew | waitNew | unlock =>
    exact o.mutex h
  | claim n =>
    obtain ⟨⟨k, b, hb, hk, hn⟩, hold⟩ := h
    rw [Role, o.tls]
    exact ⟨⟨k, b, hb, o.holds hk, hn⟩, o.old_claim hq hold⟩
  | free x =>
    exact o.issued h
  | out | initing | head | leave | leaving | exiting => trivial

theorem Thread.others (o : Others j s s') (h : Thread s j) : Thread s' j := by
  refine ⟨?_, ?_, ?_, h.role.others o⟩
  · rw [o.callPc, o.pc]
    exact h.call
  · rw [o.pc, o.tls]
    exact h.init
  · rw [o.tls]
    intro hinit b hb
    obtain ⟨hlt, ⟨k, hk⟩, hold⟩ := h.bits hinit b hb
    exact ⟨hlt, ⟨k, o.holds hk⟩, o.old_word hinit hb hold⟩

/-- A thread that uses its local data has a word. -/
theorem Thread.exists_holds (h : Thread s i) (hu : Uses s i) : ∃ k, Holds s i k := by
  rcases hu with ⟨hinit, b, hb⟩ | hhold
  · exact (h.bits hinit b hb).2.1
  · have hrole := h.role
    generalize hq : s.pc i = q at hrole hhold
    cases q with
    | load _ k | store _ k _ =>
      exact ⟨k, hrole.2.holds⟩
    | claim n =>
      obtain ⟨⟨k, -, -, hk, -⟩, -⟩ := hrole
      exact ⟨k, hk⟩
    | _ =>
      cases hhold

/-- The ghosts and the owners are as they were. -/
structure Same (s s' : State ι) : Prop where
  taken : s'.taken = s.taken
  issued : s'.issued = s.issued
  live : s'.live = s.live
  owner : s'.owner = s.owner

/-- The local data that are in use are as they were. -/
theorem Inv.holds_of_uses (h : Inv s) (htaken : s'.taken = s.taken)
    (huses : ∀ j, Uses s' j → Uses s j ∧ (s'.tls j).epoch = (s.tls j).epoch ∧
      (s'.tls j).baseId = (s.tls j).baseId) (i j : ι) (k : ℕ) (hi : Uses s' i) (hj : Uses s' j)
    (hki : Holds s' i k) (hkj : Holds s' j k) (heq : (s'.tls i).epoch = (s'.tls j).epoch) :
    i = j := by
  obtain ⟨hi', hei, hbi⟩ := huses i hi
  obtain ⟨hj', hej, hbj⟩ := huses j hj
  have hholds : ∀ {l}, (s'.tls l).epoch = (s.tls l).epoch →
      (s'.tls l).baseId = (s.tls l).baseId → Holds s' l k → Holds s l k := fun he hb hl =>
    ⟨hl.lt, by rw [← he, ← hb]; exact hl.base, by rw [← he, ← htaken]; exact hl.taken⟩
  exact h.holds i j k hi' hj' (hholds hei hbi hki) (hholds hej hbj hkj)
    (hei.symm.trans (heq.trans hej))

theorem Solo.uses (h : Solo i s s') (htls : s'.tls = s.tls) (hq : (s'.pc i).holding = false)
    {j : ι} (hu : Uses s' j) : Uses s j := by
  rw [Uses, htls] at hu
  refine hu.imp_right fun hu => ?_
  rw [← h.pc j fun hj => Bool.false_ne_true (hq.symm.trans (hj ▸ hu))]
  exact hu

/-- A step in which no word is taken and no XID issued or freed. -/
theorem Inv.of_same (h : Inv s) (hsame : Same s s')
    (hm : ∃ ph fl, Epoch.Inv s'.epochs ph fl) (ht : ∀ j, Thread s' j)
    (huses : ∀ j, Uses s' j → Uses s j ∧ (s'.tls j).epoch = (s.tls j).epoch ∧
      (s'.tls j).baseId = (s.tls j).baseId)
    (hw : ∀ e k, (e, k) ∈ s.taken → e ≤ s'.epochs.beginEpoch ∧
      (s'.epochs.beginEpoch ≤ e + 2 → k < s'.widx (e % nbitmaps)))
    (hbits : ∀ b k, s'.data b k ⊆ Finset.range bitsPerWord)
    (htrip : ∀ id < ncontexts, ∃ ok, Trip ok s s' id) : Inv s' := by
  refine ⟨hm, ht, h.holds_of_uses hsame.taken huses, ?_, ?_, ?_, ?_, ?_, hbits, ?_, ?_⟩
  · rw [hsame.taken]
    exact hw
  · rw [hsame.issued, hsame.taken]
    exact h.issued
  · rw [hsame.issued]
    exact h.spaced
  · rw [hsame.live, hsame.issued, hsame.owner]
    exact h.live
  · rw [hsame.live, hsame.owner]
    exact h.owner
  · intro id hid
    obtain ⟨ok, t⟩ := htrip id hid
    exact t.unique (h.unique id hid)
  · intro id hid p hp x hx hxid
    obtain ⟨ok, t⟩ := htrip id hid
    obtain ⟨q, hq, hrow⟩ := t.row_eq hp
    rw [hsame.issued] at hx
    rw [h.rows id hid q hq x hx hxid, hrow]

/-- A step keeps the invariant, and moves the ids. -/
structure Good (ok : Prop) (s s' : State ι) : Prop where
  inv : Inv s'
  trip : ∀ id < ncontexts, Trip ok s s' id

theorem Others.of_eq (hpc : s'.pc j = s.pc j) (htls : s'.tls j = s.tls j)
    (hepochs : s'.epochs = s.epochs) (hmutex : s.mutex = some j → s'.mutex = some j)
    (hsame : Same s s') : Others j s s' where
  pc := hpc
  tls := htls
  callPc := by rw [hepochs]
  region := by rw [hepochs]
  mem hj := by rw [hepochs]; exact hj
  epoch _ _ := by rw [hepochs]
  mutex := hmutex
  taken := hsame.taken.ge
  issued := by rw [hsame.issued]; exact List.Subset.refl _
  foreign x hx := .inl (hsame.issued ▸ hx)

theorem State.idle_of_returned (h : s.returned i = true) : s.epochs.pc i = .idle := by
  rw [State.returned] at h
  cases hq : s.epochs.pc i with
  | idle => rfl
  | _ => rw [hq] at h; cases h

section Steps

variable [DecidableEq ι] {t : State ι}

theorem role_goto {c : Pc} (h : Role t i c) (d : Pc) : Role (t.goto i d) i c := by
  cases c with
  | load _ _ | store _ _ _ => exact ⟨h.1, h.2.1, h.2.2, ⟨h.2.3.1, h.2.3.2, h.2.3.3⟩, h.2.4⟩
  | claim n =>
    obtain ⟨⟨k, b, hb, hk, hn⟩, hold⟩ := h
    exact ⟨⟨k, b, hb, ⟨hk.1, hk.2, hk.3⟩, hn⟩, hold⟩
  | _ => exact h

theorem Others.goto (o : Others j s t) (hj : j ≠ i) (c : Pc) : Others j s (t.goto i c) where
  pc := (Function.update_of_ne hj _ _).trans o.pc
  tls := o.tls
  callPc := o.callPc
  region := o.region
  mem := o.mem
  epoch := o.epoch
  mutex := o.mutex
  taken := o.taken
  issued := o.issued
  foreign := o.foreign

/-- A step between two places where the thread has no word and no id. -/
theorem Inv.move (h : Inv s) {ok : Prop} {q c : Pc} (hq : s.pc i = q) (hqp : q.plain = true)
    (hcp : c.plain = true) (hhold : c.holding = false) (hpc : t.pc = s.pc) (htls : t.tls = s.tls)
    (hdata : t.data = s.data) (hsame : Same s t) (hm : ∃ ph fl, Epoch.Inv t.epochs ph fl)
    (ho : ∀ j, j ≠ i → Others j s t)
    (hw : ∀ e k, (e, k) ∈ s.taken → e ≤ t.epochs.beginEpoch ∧
      (t.epochs.beginEpoch ≤ e + 2 → k < t.widx (e % nbitmaps)))
    (hcall : InCall (t.epochs.pc i) c.call) (hrun : c.running = true → (s.tls i).initialized = true)
    (hrole : Role t i c) : Good ok s (t.goto i c) := by
  have htrip : ∀ id < ncontexts, ∀ ok, Trip ok s (t.goto i c) id := fun id _ ok =>
    .stay (at_goto hpc htls hdata hsame.live (hq ▸ hqp) hcp)
  refine ⟨?_, fun id hid => htrip id hid ok⟩
  refine h.of_same ⟨hsame.1, hsame.2, hsame.3, hsame.4⟩ hm (fun j => ?_) (fun j hj => ?_) hw ?_
    fun id hid => ⟨True, htrip id hid True⟩
  · by_cases hj : j = i
    · subst hj
      refine ⟨?_, ?_, ?_, ?_⟩
      · rw [goto_pc]
        exact hcall
      · rw [goto_pc, goto_tls, htls]
        exact hrun
      · rw [goto_tls, htls]
        intro hinit b hb
        obtain ⟨hlt, ⟨k, hk⟩, hold⟩ := (h.thread j).bits hinit b hb
        refine ⟨hlt, ⟨k, hk.lt, ?_, ?_⟩, ?_⟩
        · rw [goto_tls, htls]
          exact hk.base
        · rw [goto_tls, htls]
          exact hsame.taken.ge hk.taken
        · intro x hx
          exact hold x (by rw [← hsame.issued]; exact hx)
      · rw [goto_pc]
        exact role_goto hrole c
    · exact (h.thread j).others ((ho j hj).goto hj c)
  · rw [goto_tls, htls]
    refine ⟨?_, rfl, rfl⟩
    rcases hj with hj | hj
    · rw [goto_tls, htls] at hj
      exact .inl hj
    · by_cases hji : j = i
      · rw [hji, goto_pc, hhold] at hj
        cases hj
      · refine .inr ?_
        rw [← hj, ((ho j hji).goto hji c).pc]
  · intro b k
    change t.data b k ⊆ _
    rw [hdata]
    exact h.bits b k

/-- Such a step outside the epoch manager. -/
theorem Inv.moveLocal (h : Inv s) {ok : Prop} {q c : Pc} (hq : s.pc i = q) (hqp : q.plain = true)
    (hcp : c.plain = true) (hhold : c.holding = false) (hidle : s.epochs.pc i = .idle)
    (hcall : c.call = none) (hrun : c.running = true → (s.tls i).initialized = true)
    (hrole : Role s i c) : Good ok s (s.goto i c) := by
  refine h.move hq hqp hcp hhold rfl rfl rfl ⟨rfl, rfl, rfl, rfl⟩ h.manager
    (fun j _ => .of_eq rfl rfl rfl id ⟨rfl, rfl, rfl, rfl⟩) h.taken ?_ hrun hrole
  rw [hcall]
  exact hidle

/-- A function of the manager returns. -/
theorem Inv.whenReturned (h : Inv s) {ok : Prop} {q c : Pc} (hq : s.pc i = q)
    (hqp : q.plain = true) (hcp : c.plain = true) (hhold : c.holding = false)
    (hcall : c.call = none) (hrun : c.running = true → (s.tls i).initialized = true)
    (hrole : Role s i c) (hs : s.whenReturned i c = some s') : Good ok s s' := by
  obtain ⟨hret, hs⟩ := Option.ite_none_right_eq_some.mp hs
  cases hs
  exact h.moveLocal hq hqp hcp hhold (State.idle_of_returned hret) hcall hrun hrole

/-- A function of the manager is called. -/
theorem Inv.called (h : Inv s) {ok : Prop} {q c : Pc} {f : Epoch.Call} (hq : s.pc i = q)
    (hqp : q.plain = true) (hcp : c.plain = true) (hhold : c.holding = false)
    (hcall : c.call = some f.duty) (hrun : c.running = true → (s.tls i).initialized = true)
    (hrole : ∀ em, Epoch.Called i f s.epochs em → Role { s with epochs := em } i c)
    (hs : s.call i f c = some s') : Good ok s s' := by
  obtain ⟨em, hem, rfl⟩ := Option.map_eq_some_iff.mp hs
  have hc := Epoch.called hem
  obtain ⟨ph, fl, hm⟩ := h.manager
  refine h.move hq hqp hcp hhold rfl rfl rfl ⟨rfl, rfl, rfl, rfl⟩ (hm.step hem) (fun j hj => ?_) ?_
    ?_ hrun (hrole em hc)
  · exact ⟨rfl, rfl, hc.pc j hj, hc.region j hj, fun hmem => hc.contexts.symm ▸ hmem,
      fun _ _ => hc.epoch, id, Finset.Subset.refl _, List.Subset.refl _, fun x hx => .inl hx⟩
  · intro e k hk
    show e ≤ em.beginEpoch ∧ (em.beginEpoch ≤ e + 2 → _)
    rw [hc.epoch]
    exact h.taken e k hk
  · rw [hcall]
    exact .inl hc.duty

/-- A step inside the manager.  The epoch changes only for the holder of `xid_mutex`, or
when there is no context. -/
theorem Inv.stepManager (h : Inv s) {ok : Prop} {pick : ι} {cookie : Bool} {em : Epoch.State ι}
    (hs : s.epochs.step (.step i pick cookie) = some em) : Good ok s { s with epochs := em } := by
  obtain ⟨ph, fl, hm⟩ := h.manager
  have heff := hm.effect hs
  have hcall := (h.thread i).call
  have hrole := (h.thread i).role
  have hbusy : s.epochs.pc i ≠ .idle := fun hidle => by
    rw [Epoch.step_idle hidle] at hs
    cases hs
  have hcall' : ∃ d, (s.pc i).call = some d := by
    cases hd : (s.pc i).call with
    | none =>
      rw [hd] at hcall
      exact absurd hcall hbusy
    | some d => exact ⟨d, rfl⟩
  -- who opens an epoch is in `new_epoch`
  have hnew : (s.epochs.pc i).duty = some .new → s.pc i = .waitNew ∧ s.mutex = some i := by
    intro hd
    cases hq : s.pc i with
    | waitNew =>
      rw [hq] at hrole
      exact ⟨rfl, hrole⟩
    | initing | entering | leaving | overflowing _ | exiting =>
      rw [hq, Pc.call, InCall, hd] at hcall
      rcases hcall with hcall | hcall <;> cases hcall
    | _ =>
      rw [hq] at hcall'
      obtain ⟨d, hcall'⟩ := hcall'
      cases hcall'
  have hother : ∀ j, j ≠ i → Others j s { s with epochs := em } := by
    intro j hj
    refine ⟨rfl, rfl, heff.pc j hj, heff.region j hj, fun hmem => ?_, fun e hq => ?_, id,
      Finset.Subset.refl _, List.Subset.refl _, fun x hx => .inl hx⟩
    · exact (heff.mem j hmem).resolve_right fun hji => hj hji.1
    · have hrole' := (h.thread j).role
      rw [hq] at hrole'
      rcases heff.epoch with heq | ⟨-, hd | hempty⟩
      · exact heq
      · have := (hnew hd).2.symm.trans hrole'.1
        exact absurd (Option.some_inj.mp this).symm hj
      · have hmem : j ∈ s.epochs.contexts := hrole'.2.1
        rw [hempty] at hmem
        exact absurd hmem (Finset.notMem_empty j)
  have htrip : ∀ id, ∀ ok, Trip ok s { s with epochs := em } id := fun id ok =>
    .stay fun p => by cases p <;> exact Iff.rfl
  refine ⟨h.of_same ⟨rfl, rfl, rfl, rfl⟩ (hm.step hs) (fun j => ?_) (fun j hj => ⟨hj, rfl, rfl⟩)
    (fun e k hk => ?_) h.bits fun id _ => ⟨True, htrip id True⟩, fun id _ => htrip id ok⟩
  · by_cases hj : j = i
    · subst hj
      have ht := h.thread j
      refine ⟨?_, ht.init, fun hinit b hb => ?_, ?_⟩
      · obtain ⟨d, hd⟩ := hcall'
        rw [hd] at hcall ⊢
        rcases heff.duty with heq | hnone
        · rcases hcall with hc | hc
          · exact .inl (heq.trans hc)
          · exact .inr (heq.trans hc)
        · exact .inr hnone
      · obtain ⟨hlt, ⟨k, hk⟩, hold⟩ := ht.bits hinit b hb
        exact ⟨hlt, ⟨k, hk.1, hk.2, hk.3⟩, hold⟩
      · show Role _ j (s.pc j)
        cases hq : s.pc j with
        | initing | leaving | exiting => trivial
        | entering | waitNew =>
          rw [hq] at hrole
          exact hrole
        | overflowing e =>
          rw [hq] at hrole hcall
          refine (heff.mem j hrole).resolve_right fun hd => ?_
          rcases hcall with hc | hc <;> rw [hc] at hd <;> cases hd.2
        | _ =>
          rw [hq] at hcall'
          obtain ⟨d, hcall'⟩ := hcall'
          cases hcall'
    · exact (h.thread j).others (hother j hj)
  · obtain ⟨hle, hlt⟩ := h.taken e k hk
    have hmono : s.epochs.beginEpoch ≤ em.beginEpoch := heff.le
    exact ⟨hle.trans hmono, fun h2 => hlt (hmono.trans h2)⟩

/-- A step of thread `i` outside the manager, which may touch its local data. -/
theorem Inv.solo (h : Inv s) {ok : Prop} (hpc : ∀ j, j ≠ i → s'.pc j = s.pc j)
    (htls : ∀ j, j ≠ i → s'.tls j = s.tls j) (hsame : Same s s') (hepochs : s'.epochs = s.epochs)
    (hmutex : s'.mutex = s.mutex) (hwidx : s'.widx = s.widx) (hi : Thread s' i)
    (huses : Uses s' i → Uses s i ∧ (s'.tls i).epoch = (s.tls i).epoch ∧
      (s'.tls i).baseId = (s.tls i).baseId)
    (hbits : ∀ b k, s'.data b k ⊆ Finset.range bitsPerWord)
    (htrip : ∀ id < ncontexts, Trip ok s s' id) : Good ok s s' := by
  refine ⟨h.of_same hsame (hepochs.symm ▸ h.manager) (fun j => ?_) (fun j hj => ?_) ?_ hbits
    fun id hid => ⟨ok, htrip id hid⟩, htrip⟩
  · by_cases hj : j = i
    · exact hj ▸ hi
    · exact (h.thread j).others (.of_eq (hpc j hj) (htls j hj) hepochs
        (fun hm => hmutex.trans hm) hsame)
  · by_cases hji : j = i
    · subst hji
      exact huses hj
    · rw [Uses, hpc j hji, htls j hji] at hj
      rw [htls j hji]
      exact ⟨hj, rfl, rfl⟩
  · rw [hepochs, hwidx]
    exact h.taken

theorem Inv.load (h : Inv s) {ok : Prop} (hq : s.pc i = .load e k) : Good ok s
    ((s.setTls i { s.tls i with bitmap := s.data (e % nbitmaps) k }).goto i
      (.store e k (s.tls i).bitmap)) := by
  have ht := h.thread i
  have hrole := ht.role
  rw [hq] at hrole
  obtain ⟨hempty, hsw⟩ : (s.tls i).bitmap = ∅ ∧ Swapping s i e k := hrole
  have hinit : (s.tls i).initialized = true := ht.init (by rw [hq]; rfl)
  have hbase : (s.tls i).baseId = baseOf e k := hsw.epoch ▸ hsw.holds.base
  set s' := (s.setTls i { s.tls i with bitmap := s.data (e % nbitmaps) k }).goto i
    (.store e k (s.tls i).bitmap)
  have hq' : s'.pc i = .store e k (s.tls i).bitmap := goto_pc _ i _
  have htls : s'.tls i = { s.tls i with bitmap := s.data (e % nbitmaps) k } := setTls_self _ _ _
  have hsolo : Solo i s s' := ((Solo.of_eq rfl rfl).setTls _).goto _
  have hholds : Holds s' i k := ⟨hsw.holds.lt, by rw [htls]; exact hsw.holds.base,
    by rw [htls]; exact hsw.holds.taken⟩
  refine h.solo hsolo.pc hsolo.tls ⟨rfl, rfl, rfl, rfl⟩ rfl rfl rfl ⟨?_, ?_, ?_, ?_⟩ ?_ h.bits ?_
  · rw [hq']
    exact ht.call_eq hq rfl
  · rw [htls]
    exact fun _ => hinit
  · rw [htls]
    intro _ b hb
    refine ⟨Finset.mem_range.mp (h.bits _ _ hb), ⟨k, hholds⟩, ?_⟩
    show Old s (s.tls i).epoch ((s.tls i).baseId + b)
    rw [hbase, hsw.epoch]
    exact h.old_of_load hq hb
  · rw [hq']
    exact ⟨hempty, hsw.region, by rw [htls]; exact hsw.epoch, hholds, hsw.fresh⟩
  · intro _
    rw [htls]
    exact ⟨.inr (by rw [hq]; rfl), rfl, rfl⟩
  · exact fun id hid => .load hq hinit hempty hsw.epoch hbase hsw.holds.lt (h.bits _ _)
      (h.not_overwrites hq) hid

theorem Inv.store (h : Inv s) {ok : Prop} {tmp : Finset ℕ} (hq : s.pc i = .store e k tmp) :
    Good ok s ((s.setWord (e % nbitmaps) k tmp).goto i .leave) := by
  have ht := h.thread i
  have hrole := ht.role
  rw [hq] at hrole
  obtain ⟨rfl, -⟩ : tmp = ∅ ∧ Swapping s i e k := hrole
  set s' := (s.setWord (e % nbitmaps) k ∅).goto i .leave
  have hq' : s'.pc i = .leave := goto_pc _ i _
  have hsolo : Solo i s s' := by
    refine Solo.goto ?_ _
    exact Solo.of_eq rfl rfl
  refine h.solo hsolo.pc hsolo.tls ⟨rfl, rfl, rfl, rfl⟩ rfl rfl rfl ⟨?_, ?_, ?_, ?_⟩ ?_ ?_
    fun id _ => .store hq
  · rw [hq']
    exact ht.call_eq hq rfl
  · exact fun _ => ht.init (by rw [hq]; rfl)
  · intro hinit b hb
    obtain ⟨hlt, ⟨k', hk'⟩, hold⟩ := ht.bits hinit b hb
    exact ⟨hlt, ⟨k', hk'.1, hk'.2, hk'.3⟩, hold⟩
  · rw [hq']
    trivial
  · rintro (hu | hu)
    · exact ⟨.inl hu, rfl, rfl⟩
    · rw [hq'] at hu
      cases hu
  · intro b' k'
    change (s.setWord (e % nbitmaps) k ∅).data b' k' ⊆ _
    by_cases hb : b' = e % nbitmaps ∧ k' = k
    · rw [hb.1, hb.2, setWord_data]
      exact Finset.empty_subset _
    · rw [setWord_data_of_ne s ∅ hb]
      exact h.bits b' k'

theorem Inv.takeOne (h : Inv s) {ok : Prop} (hq : s.pc i = .head)
    (hne : (s.tls i).bitmap.Nonempty) : Good ok s (s.takeOne i hne) := by
  have ht := h.thread i
  have hinit : (s.tls i).initialized = true := ht.init (by rw [hq]; rfl)
  set b := (s.tls i).bitmap.min' hne
  have hmem : b ∈ (s.tls i).bitmap := Finset.min'_mem _ _
  obtain ⟨hlt, ⟨k, hk⟩, hold⟩ := ht.bits hinit b hmem
  set s' := s.takeOne i hne
  have hq' : s'.pc i = .claim ((s.tls i).baseId + b) := goto_pc _ i _
  have htls : s'.tls i = { s.tls i with bitmap := (s.tls i).bitmap.erase b } := setTls_self _ _ _
  have hsolo : Solo i s s' := ((Solo.of_eq rfl rfl).setTls _).goto _
  have hholds : ∀ {k}, Holds s i k → Holds s' i k := fun hk =>
    ⟨hk.lt, by rw [htls]; exact hk.base, by rw [htls]; exact hk.taken⟩
  refine h.solo hsolo.pc hsolo.tls ⟨rfl, rfl, rfl, rfl⟩ rfl rfl rfl ⟨?_, ?_, ?_, ?_⟩ ?_ h.bits
    fun id _ => .takeOne hq hinit hne
  · rw [hq']
    exact ht.call_eq hq rfl
  · rw [htls]
    exact fun _ => hinit
  · rw [htls]
    intro _ b' hb'
    obtain ⟨hlt', ⟨k', hk'⟩, hold'⟩ := ht.bits hinit b' (Finset.mem_of_mem_erase hb')
    exact ⟨hlt', ⟨k', hholds hk'⟩, hold'⟩
  · rw [hq', Role, htls]
    exact ⟨⟨k, b, hlt, hholds hk, rfl⟩, hold⟩
  · intro _
    rw [htls]
    exact ⟨.inl ⟨hinit, hne⟩, rfl, rfl⟩

theorem Inv.giveBack (h : Inv s) {x : Xid} (hq : s.pc i = .free x) :
    Good (Kept s (.step i)) s (s.giveBack i (toPtr x)) := by
  have ht := h.thread i
  have hrole := ht.role
  rw [hq] at hrole
  obtain ⟨hx, hhalf, -⟩ := h.issued x hrole
  set s' := s.giveBack i (toPtr x)
  have hq' : s'.pc i = .out := goto_pc _ i _
  have hsolo : Solo i s s' := by
    refine Solo.goto ?_ _
    exact Solo.of_eq rfl rfl
  refine h.solo hsolo.pc hsolo.tls ⟨rfl, rfl, rfl, rfl⟩ rfl rfl rfl ⟨?_, ?_, ?_, ?_⟩ ?_ ?_
    fun id hid => .giveBack hq hx hhalf hid
  · rw [hq']
    exact ht.call_eq hq rfl
  · rw [hq']
    intro hrun
    cases hrun
  · intro hinit b hb
    obtain ⟨hlt, ⟨k', hk'⟩, hold⟩ := ht.bits hinit b hb
    exact ⟨hlt, ⟨k', hk'.1, hk'.2, hk'.3⟩, hold⟩
  · rw [hq']
    trivial
  · rintro (hu | hu)
    · exact ⟨.inl hu, rfl, rfl⟩
    · rw [hq'] at hu
      cases hu
  · intro b' k'
    change (s.setWord _ _ _).data b' k' ⊆ _
    by_cases hb : b' = XID.epoch (toPtr x) % nbitmaps ∧ k' = wordOf (XID.localId (toPtr x))
    · rw [hb.1, hb.2, setWord_data]
      refine Finset.insert_subset (Finset.mem_range.mpr (Nat.mod_lt _ (by decide))) ?_
      exact h.bits _ _
    · rw [setWord_data_of_ne s _ hb]
      exact h.bits b' k'

/-- New local data for a thread that is in none of the functions. -/
theorem Inv.setTls (h : Inv s) {ok : Prop} {d : ContextData} (hq : s.pc i = .out)
    (hd : d.initialized = true → d.bitmap = ∅)
    (htrip : ∀ id < ncontexts, Trip ok s (s.setTls i d) id) : Good ok s (s.setTls i d) := by
  have ht := h.thread i
  have hsolo : Solo i s (s.setTls i d) := (Solo.of_eq rfl rfl).setTls d
  refine h.solo hsolo.pc hsolo.tls ⟨rfl, rfl, rfl, rfl⟩ rfl rfl rfl ⟨ht.call, ?_, ?_, ?_⟩ ?_ h.bits
    htrip
  · intro hrun
    change (s.pc i).running = true at hrun
    rw [hq] at hrun
    cases hrun
  · rw [setTls_self]
    intro hinit b hb
    rw [hd hinit] at hb
    exact absurd hb (Finset.notMem_empty b)
  · show Role _ i (s.pc i)
    rw [hq]
    trivial
  · rintro (⟨hinit, b, hb⟩ | hhold)
    · rw [setTls_self] at hinit hb
      rw [hd hinit] at hb
      exact absurd hb (Finset.notMem_empty b)
    · change (s.pc i).holding = true at hhold
      rw [hq] at hhold
      cases hhold

/-- The thread registers or ends: new local data, and a call of the manager. -/
theorem Inv.setTls_call (h : Inv s) {ok : Prop} {d : ContextData} {c : Pc} {f : Epoch.Call}
    (hq : s.pc i = .out) (hd : d.initialized = true → d.bitmap = ∅)
    (htrip : ∀ id < ncontexts, Trip ok s (s.setTls i d) id) (hcp : c.plain = true)
    (hhold : c.holding = false) (hcall : c.call = some f.duty)
    (hrun : c.running = true → d.initialized = true) (hrole : ∀ t : State ι, Role t i c)
    (hs : (s.setTls i d).call i f c = some s') : Good ok s s' := by
  have hgood := h.setTls hq hd htrip
  have hcalled : Good True (s.setTls i d) s' := hgood.inv.called (q := .out) hq rfl hcp hhold hcall
    (by rw [setTls_self]; exact hrun) (fun em _ => hrole _) hs
  refine ⟨hcalled.inv, fun id hid => (hgood.trip id hid).then_stay ?_⟩
  obtain ⟨em, -, rfl⟩ := Option.map_eq_some_iff.mp hs
  refine at_goto rfl rfl rfl rfl ?_ hcp
  show (s.pc i).plain = true
  rw [hq]
  rfl

theorem Inv.register (h : Inv s) {ok : Prop} (hq : s.pc i = .out)
    (hinit : (s.tls i).initialized = false)
    (hs : (s.setTls i ⟨0, ∅, 0, true⟩).call i .init .initing = some s') : Good ok s s' := by
  refine h.setTls_call (c := .initing) hq (fun _ => rfl)
    (fun id _ => .stay (at_setTls ?_ ?_ fun _ => rfl)) rfl rfl rfl (fun _ => rfl)
    (fun _ => trivial) hs
  · rw [hq]
    rfl
  · intro htrue
    rw [hinit] at htrue
    cases htrue

theorem Inv.deregister (h : Inv s) (hq : s.pc i = .out)
    (hs : (s.setTls i { s.tls i with initialized := false }).call i .fini .exiting = some s') :
    Good (Kept s (.exit i)) s s' := by
  refine h.setTls_call (c := .exiting) hq (fun hinit => ?_) (fun id _ => ?_) rfl rfl rfl
    (fun hrun => ?_) (fun _ => trivial) hs
  · cases hinit
  · by_cases hempty : (s.tls i).bitmap = ∅
    · refine .stay (at_setTls ?_ (fun _ => hempty) fun hinit => ?_)
      · rw [hq]
        rfl
      · cases hinit
    · exact .lost hempty at_of_end
  · cases hrun

/-- The swap of `widx` succeeds: nobody has taken this word in this epoch. -/
theorem Inv.takeWord (h : Inv s) {ok : Prop} (hq : s.pc i = .cas e k)
    (hw : s.widx (e % nbitmaps) = k) : Good ok s (s.takeWord i e k) := by
  have ht := h.thread i
  have hrole := ht.role
  rw [hq] at hrole
  obtain ⟨⟨hempty, hregion⟩, hlt⟩ := hrole
  have hinit : (s.tls i).initialized = true := ht.init (by rw [hq]; rfl)
  obtain ⟨hle, hlag⟩ := h.near hregion
  have hnew : (e, k) ∉ s.taken := fun hmem => by
    have := (h.taken e k hmem).2 hlag
    omega
  set s' := s.takeWord i e k
  have hq' : s'.pc i = .load e k := goto_pc _ i _
  have htls : s'.tls i = { s.tls i with epoch := e, baseId := baseOf e k } := setTls_self _ _ _
  have hsolo : Solo i s s' := by
    refine Solo.goto (Solo.setTls ?_ _) _
    exact Solo.of_eq rfl rfl
  have htaken : s'.taken = Insert.insert (e, k) s.taken := rfl
  have hwidx : s'.widx = Function.update s.widx (e % nbitmaps) (k + 1) := rfl
  have hstay : ∀ id p, s'.At id p ↔ s.At id p := by
    intro id p
    refine hsolo.at_neutral rfl rfl (by rw [hq]; rfl) (by rw [hq']; rfl) (fun e' => ?_) p
    refine iff_of_false ?_ ?_
    · rintro ⟨-, -, b, hb, -⟩
      rw [htls] at hb
      change b ∈ (s.tls i).bitmap at hb
      rw [hempty] at hb
      exact Finset.notMem_empty b hb
    · rintro ⟨-, -, b, hb, -⟩
      rw [hempty] at hb
      exact Finset.notMem_empty b hb
  have hothers : ∀ j, j ≠ i → Others j s s' := fun j hj =>
    ⟨hsolo.pc j hj, hsolo.tls j hj, rfl, rfl, id, fun _ _ => rfl, id, Finset.subset_insert _ _,
      List.Subset.refl _, fun x hx => .inl hx⟩
  -- another thread with this word would have taken it before
  have hback : ∀ j, j ≠ i → ∀ k', Uses s' j → Holds s' j k' → Uses s j ∧ Holds s j k' := by
    intro j hj k' hu hk'
    rw [Uses, hsolo.pc j hj, hsolo.tls j hj] at hu
    obtain ⟨k'', hk''⟩ := (h.thread j).exists_holds hu
    have hbase := hk'.base
    rw [hsolo.tls j hj, hk''.base] at hbase
    exact ⟨hu, baseOf_inj hbase ▸ hk''⟩
  have hself : ∀ k', Holds s' i k' → k' = k := fun k' hk' => by
    have hbase := hk'.base
    rw [htls] at hbase
    exact (baseOf_inj hbase).symm
  have hlone : ∀ j, j ≠ i → ∀ k', Uses s' j → Holds s' j k' → Holds s' i k' →
      (s'.tls j).epoch ≠ e := by
    intro j hj k' hu hk' hi' he
    obtain ⟨-, hold⟩ := hback j hj k' hu hk'
    have hmem := hold.taken
    rw [hsolo.tls j hj] at he
    rw [he, hself k' hi'] at hmem
    exact hnew hmem
  have hepoch : (s'.tls i).epoch = e := by rw [htls]
  refine ⟨⟨h.manager, fun j => ?_, ?_, ?_, ?_, h.spaced, h.live, h.owner, h.bits, ?_, ?_⟩,
    fun id _ => .stay (hstay id)⟩
  · by_cases hj : j = i
    · subst hj
      refine ⟨?_, ?_, ?_, ?_⟩
      · rw [hq']
        exact ht.call_eq hq rfl
      · rw [htls]
        exact fun _ => hinit
      · rw [htls]
        intro _ b hb
        change b ∈ (s.tls j).bitmap at hb
        rw [hempty] at hb
        exact absurd hb (Finset.notMem_empty b)
      · rw [hq']
        refine ⟨by rw [htls]; exact hempty, hregion, hepoch, ⟨hlt, by rw [htls], ?_⟩, ?_⟩
        · rw [htaken, hepoch]
          exact Finset.mem_insert_self _ _
        · rintro x hx rfl rfl
          exact hnew (h.issued x hx).2.2
    · exact (h.thread j).others (hothers j hj)
  · intro l j k' hl hj hkl hkj heq
    by_cases hli : l = i
    · by_cases hji : j = i
      · rw [hli, hji]
      · subst hli
        exact absurd (heq.symm.trans hepoch) (hlone j hji k' hj hkj hkl)
    · by_cases hji : j = i
      · subst hji
        exact absurd (heq.trans hepoch) (hlone l hli k' hl hkl hkj)
      · obtain ⟨hl', hkl'⟩ := hback l hli k' hl hkl
        obtain ⟨hj', hkj'⟩ := hback j hji k' hj hkj
        rw [hsolo.tls l hli, hsolo.tls j hji] at heq
        exact h.holds l j k' hl' hj' hkl' hkj' heq
  · intro e' k' hmem
    show e' ≤ s.epochs.beginEpoch ∧ (s.epochs.beginEpoch ≤ e' + 2 → k' < s'.widx (e' % nbitmaps))
    rw [hwidx, Function.update_apply]
    rw [htaken, Finset.mem_insert, Prod.mk.injEq] at hmem
    rcases hmem with ⟨rfl, rfl⟩ | hmem
    · rw [if_pos rfl]
      exact ⟨hle, fun _ => Nat.lt_succ_self _⟩
    · obtain ⟨hle', hlt'⟩ := h.taken e' k' hmem
      refine ⟨hle', fun hlag' => ?_⟩
      by_cases hb : e' % nbitmaps = e % nbitmaps
      · have := hlt' hlag'
        rw [hb, hw] at this
        rw [if_pos hb]
        omega
      · rw [if_neg hb]
        exact hlt' hlag'
  · intro x hx
    obtain ⟨hlt', hhalf, hmem⟩ := h.issued x hx
    exact ⟨hlt', hhalf, Finset.mem_insert_of_mem hmem⟩
  · intro id hid p q hp hq
    exact h.unique id hid p q ((hstay id p).mp hp) ((hstay id q).mp hq)
  · intro id hid p hp
    exact h.rows id hid p ((hstay id p).mp hp)

/-- The XID is issued: the id is at no other place. -/
theorem Inv.issue (h : Inv s) {ok : Prop} {n : ℕ} (hq : s.pc i = .claim n) :
    Good ok s (s.issue i n) := by
  have ht := h.thread i
  have hrole := ht.role
  rw [hq] at hrole
  obtain ⟨⟨k, b, hb, hk, hn⟩, hold⟩ := hrole
  obtain ⟨hid, hhalf, hword, -⟩ := baseOf_add (e := (s.tls i).epoch) hk.lt hb
  rw [← hk.base, ← hn] at hid hhalf hword
  have hinit : (s.tls i).initialized = true := ht.init (by rw [hq]; rfl)
  have hat : s.At n (.claim i (s.tls i).epoch) := ⟨hq, rfl⟩
  set x : Xid := ⟨(s.tls i).epoch, n⟩ with hx
  set s' := s.issue i n
  have hq' : s'.pc i = .out := goto_pc _ i _
  have hsolo : Solo i s s' := by
    refine Solo.goto ?_ _
    exact Solo.of_eq rfl rfl
  have hissued : ∀ {y}, y ∈ s'.issued ↔ y ∈ s.issued ∨ y = x := fun {y} => by
    rw [← List.mem_singleton, ← List.mem_append]
    rfl
  have hlive : ∀ {y}, y ∈ s'.live ↔ y = x ∨ y ∈ s.live := Finset.mem_insert
  have howner : s'.owner = Function.update s.owner n (some (toPtr x)) := rfl
  have htrip : ∀ id, ∀ ok, Trip ok s s' id := fun id ok => .issue hq
  -- the id is with this thread, so no live XID has it
  have hfresh : ∀ y ∈ s.live, y.localId ≠ n := by
    intro y hy heq
    have := h.unique n hid (.live y.epoch) _ (by rw [← heq]; exact hy) hat
    cases this
  have hunique : ∀ id < ncontexts, ∀ p q, s'.At id p → s'.At id q → p = q := fun id hid' =>
    (htrip id True).unique (h.unique id hid')
  refine ⟨⟨h.manager, fun j => ?_, ?_, h.taken, ?_, ?_, ?_, ?_, h.bits, hunique, ?_⟩,
    fun id _ => htrip id ok⟩
  · by_cases hj : j = i
    · subst hj
      refine ⟨?_, ?_, ?_, ?_⟩
      · rw [hq']
        exact ht.call_eq hq rfl
      · rw [hq']
        intro hrun
        cases hrun
      · intro _ b' hb'
        obtain ⟨hlt, ⟨k', hk'⟩, hold'⟩ := ht.bits hinit b' hb'
        refine ⟨hlt, ⟨k', hk'.1, hk'.2, hk'.3⟩, fun y hy hyid => ?_⟩
        rcases hissued.mp hy with hy | rfl
        · exact hold' y hy hyid
        · have := h.unique n hid (.word j (s.tls j).epoch) _ ⟨hinit, rfl, b', hb', hyid.symm⟩ hat
          cases this
      · rw [hq']
        trivial
    · refine (h.thread j).others ⟨hsolo.pc j hj, rfl, rfl, rfl, id, fun _ _ => rfl, id,
        Finset.Subset.refl _, fun y hy => hissued.mpr (.inl hy), fun y hy => ?_⟩
      rcases hissued.mp hy with hy | rfl
      · exact .inl hy
      · -- another thread has neither the id nor its word
        refine .inr ⟨fun e' hw => ?_, fun e' hc => ?_, fun hu k' hk' he hw => ?_⟩
        · have := h.unique n hid _ _ hw hat
          cases this
        · have := h.unique n hid _ _ hc hat
          cases this
          exact hj rfl
        · have hkk : k' = k := hw.symm.trans hword
          subst hkk
          exact hj (h.holds j i k' hu (.inr (by rw [hq]; rfl)) hk' hk he)
  · exact h.holds_of_uses rfl fun _ hu => ⟨hsolo.uses rfl (by rw [hq']; rfl) hu, rfl, rfl⟩
  · intro y hy
    rcases hissued.mp hy with hy | rfl
    · exact h.issued y hy
    · refine ⟨hid, hhalf, ?_⟩
      show ((s.tls i).epoch, wordOf n) ∈ s.taken
      rw [hword]
      exact hk.taken
  · show (s.issued ++ [x]).Pairwise _
    rw [List.pairwise_append]
    refine ⟨h.spaced, List.pairwise_singleton _ _, fun y hy z hz hyz => ?_⟩
    rw [List.mem_singleton] at hz
    subst hz
    exact hold y hy hyz
  · intro y hy
    rw [howner]
    rcases hlive.mp hy with rfl | hy
    · refine ⟨hissued.mpr (.inr rfl), Function.update_self _ _ _, fun z hz hzid => ?_⟩
      rcases hissued.mp hz with hz | rfl
      · exact .inr (hold z hz hzid)
      · exact .inl rfl
    · obtain ⟨hyi, hyo, hys⟩ := h.live y hy
      refine ⟨hissued.mpr (.inl hyi), ?_, fun z hz hzid => ?_⟩
      · rw [Function.update_of_ne (hfresh y hy)]
        exact hyo
      · rcases hissued.mp hz with hz | rfl
        · exact hys z hz hzid
        · exact absurd hzid.symm (hfresh y hy)
  · intro id o ho
    rw [howner, Function.update_apply] at ho
    by_cases hidn : id = n
    · rw [if_pos hidn, Option.some_inj] at ho
      exact ⟨x, hlive.mpr (.inl rfl), hidn.symm, ho.symm⟩
    · rw [if_neg hidn] at ho
      obtain ⟨y, hy, hyid, hyo⟩ := h.owner id o ho
      exact ⟨y, hlive.mpr (.inr hy), hyid, hyo⟩
  · intro id hid' p hp y hy hyid
    rcases hissued.mp hy with hy | rfl
    · obtain ⟨q, hq, hrow⟩ := (htrip id True).row_eq hp
      rw [h.rows id hid' q hq y hy hyid, hrow]
    · subst hyid
      have hnew : s'.At n (.live (s.tls i).epoch) := hlive.mpr (.inl rfl)
      rw [hunique n hid p _ hp hnew]
      rfl

/-- `xid_free` clears the owner. -/
theorem Inv.free (h : Inv s) {ok : Prop} {x : Xid} (hq : s.pc i = .out) (hx : x ∈ s.live) :
    Good ok s (({ s with live := s.live.erase x }.setOwner (XID.localId (toPtr x)) none).goto i
      (.free x)) := by
  have ht := h.thread i
  obtain ⟨hxi, -, -⟩ := h.live x hx
  have hid := (h.issued x hxi).1
  rw [localId_toPtr hid]
  set m := { s with live := s.live.erase x }.setOwner x.localId none with hm
  set s' := m.goto i (.free x) with hs'
  have hq' : s'.pc i = .free x := goto_pc _ i _
  have hsolo : Solo i s s' := by
    refine Solo.goto ?_ _
    exact Solo.of_eq rfl rfl
  have howner : s'.owner = Function.update s.owner x.localId none := rfl
  have htrip : ∀ id, ∀ ok, Trip ok s s' id := fun id ok => .free hq hx m rfl rfl rfl rfl
  -- no other live XID has this context
  have hlone : ∀ y ∈ s.live, y.localId = x.localId → y = x := by
    intro y hy heq
    have := h.unique _ hid (.live y.epoch) (.live x.epoch) (by rw [← heq]; exact hy) hx
    exact xid_eq (Place.live.inj this) heq
  refine ⟨⟨h.manager, fun j => ?_, ?_, h.taken, h.issued, h.spaced, ?_, ?_, h.bits, ?_, ?_⟩,
    fun id _ => htrip id ok⟩
  · by_cases hj : j = i
    · subst hj
      refine ⟨?_, ?_, ?_, ?_⟩
      · rw [hq']
        exact ht.call_eq hq rfl
      · rw [hq']
        intro hrun
        cases hrun
      · intro hinit b hb
        obtain ⟨hlt, ⟨k, hk⟩, hold⟩ := ht.bits hinit b hb
        exact ⟨hlt, ⟨k, hk.1, hk.2, hk.3⟩, hold⟩
      · rw [hq']
        exact hxi
    · exact (h.thread j).others ⟨hsolo.pc j hj, rfl, rfl, rfl, id, fun _ _ => rfl, id,
        Finset.Subset.refl _, List.Subset.refl _, fun y hy => .inl hy⟩
  · exact h.holds_of_uses rfl fun _ hu => ⟨hsolo.uses rfl (by rw [hq']; rfl) hu, rfl, rfl⟩
  · intro y hy
    obtain ⟨hne, hy⟩ := Finset.mem_erase.mp hy
    obtain ⟨hyi, hyo, hys⟩ := h.live y hy
    refine ⟨hyi, ?_, hys⟩
    rw [howner, Function.update_of_ne fun heq => hne (hlone y hy heq)]
    exact hyo
  · intro id o ho
    rw [howner, Function.update_apply] at ho
    by_cases hidx : id = x.localId
    · rw [if_pos hidx] at ho
      cases ho
    · rw [if_neg hidx] at ho
      obtain ⟨y, hy, hyid, hyo⟩ := h.owner id o ho
      refine ⟨y, Finset.mem_erase.mpr ⟨?_, hy⟩, hyid, hyo⟩
      rintro rfl
      exact hidx hyid.symm
  · intro id hid'
    exact (htrip id True).unique (h.unique id hid')
  · intro id hid' p hp y hy hyid
    obtain ⟨q, hq, hrow⟩ := (htrip id True).row_eq hp
    rw [h.rows id hid' q hq y hy hyid, hrow]

theorem Inv.lock (h : Inv s) {ok : Prop} (hq : s.pc i = .lock e) (hfree : s.mutex = none) :
    Good ok s ({ s with mutex := some i }.goto i (.test e)) := by
  have ht := h.thread i
  have hrole := ht.role
  rw [hq] at hrole
  refine h.move hq rfl rfl rfl rfl rfl rfl ⟨rfl, rfl, rfl, rfl⟩ h.manager (fun j _ => ?_) h.taken
    (ht.call_eq hq rfl) (fun _ => ht.init (by rw [hq]; rfl)) ⟨rfl, hrole⟩
  refine .of_eq rfl rfl rfl (fun hm => ?_) ⟨rfl, rfl, rfl, rfl⟩
  rw [hfree] at hm
  cases hm

theorem Inv.unlock (h : Inv s) {ok : Prop} (hq : s.pc i = .unlock) :
    Good ok s ({ s with mutex := none }.goto i .head) := by
  have ht := h.thread i
  have hrole := ht.role
  rw [hq] at hrole
  refine h.move hq rfl rfl rfl rfl rfl rfl ⟨rfl, rfl, rfl, rfl⟩ h.manager (fun j hj => ?_) h.taken
    (ht.call_eq hq rfl) (fun _ => ht.init (by rw [hq]; rfl)) trivial
  refine .of_eq rfl rfl rfl (fun hm => ?_) ⟨rfl, rfl, rfl, rfl⟩
  exact absurd (Option.some_inj.mp (hm.symm.trans hrole)) hj

/-- The words of the next epoch are free for all: nobody is in an epoch with the same
bitmap. -/
theorem Inv.reset (h : Inv s) {ok : Prop} (hq : s.pc i = .reset e) :
    Good ok s ((s.setWidx ((e + 1) % nbitmaps) 0).goto i .tryNew) := by
  have ht := h.thread i
  have hrole := ht.role
  rw [hq] at hrole
  obtain ⟨hmutex, -, he⟩ := hrole
  refine h.move hq rfl rfl rfl rfl rfl rfl ⟨rfl, rfl, rfl, rfl⟩ h.manager
    (fun j _ => .of_eq rfl rfl rfl id ⟨rfl, rfl, rfl, rfl⟩) (fun e' k' hk' => ?_)
    (ht.call_eq hq rfl) (fun _ => ht.init (by rw [hq]; rfl)) hmutex
  obtain ⟨hle, hlt⟩ := h.taken e' k' hk'
  refine ⟨hle, fun hlag => ?_⟩
  show k' < Function.update s.widx ((e + 1) % nbitmaps) 0 (e' % nbitmaps)
  have hne : e' % nbitmaps ≠ (e + 1) % nbitmaps := by
    change s.epochs.beginEpoch ≤ e' + 2 at hlag
    rw [show nbitmaps = 4 from rfl]
    omega
  rw [Function.update_of_ne hne]
  exact hlt hlag

/-- `widx` has been read: there is a word left, or none. -/
theorem Inv.nextWord (h : Inv s) {ok : Prop} {q : Pc} (hq : s.pc i = q) (hqp : q.plain = true)
    (hrun : q.running = true) (hcall : q.call = none)
    (hrole : (s.tls i).bitmap = ∅ ∧ s.epochs.region i = some e) (k : ℕ) :
    Good ok s (s.goto i (State.nextWord e k)) := by
  have ht := h.thread i
  have hidle := ht.call
  rw [hq, hcall] at hidle
  have hinit : (s.tls i).initialized = true := ht.init (by rw [hq]; exact hrun)
  rw [State.nextWord]
  by_cases hk : k < nwords
  · rw [if_pos hk]
    exact h.moveLocal hq hqp rfl rfl hidle rfl (fun _ => hinit) ⟨hrole, hk⟩
  · rw [if_neg hk]
    exact h.moveLocal hq hqp rfl rfl hidle rfl (fun _ => hinit) hrole

theorem Inv.stepThread (h : Inv s) (hs : s.stepThread i (s.pc i) = some s') :
    Good (Kept s (.step i)) s s' := by
  have ht := h.thread i
  have hrole := ht.role
  have hcall := ht.call
  have hinit := ht.init
  generalize hq : s.pc i = q at hs hrole hcall hinit
  cases q with
  | out =>
    cases hs
  | initing | leaving =>
    exact h.whenReturned (c := .head) hq rfl rfl rfl rfl (fun _ => hinit rfl) trivial hs
  | head =>
    rw [State.stepThread] at hs
    by_cases hne : (s.tls i).bitmap.Nonempty
    · rw [dif_pos hne] at hs
      cases hs
      exact h.takeOne hq hne
    · rw [dif_neg hne] at hs
      exact h.called (c := .entering) (f := .enter) hq rfl rfl rfl rfl
        (fun _ => hinit rfl) (fun em _ => Finset.not_nonempty_iff_eq_empty.mp hne) hs
  | entering =>
    rw [State.stepThread] at hs
    cases hr : s.epochs.region i with
    | none =>
      rw [hr] at hs
      cases hs
    | some e =>
      rw [hr] at hs
      exact h.whenReturned (c := .readWidx e) hq rfl rfl rfl rfl
        (fun _ => hinit rfl) ⟨hrole, hr⟩ hs
  | readWidx e =>
    cases hs
    exact h.nextWord hq rfl rfl rfl hrole _
  | cas e k =>
    rw [State.stepThread] at hs
    -- the swap fails if another thread has moved `widx`
    by_cases hw : s.widx (e % nbitmaps) = k
    · rw [if_pos hw] at hs
      cases hs
      exact h.takeWord hq hw
    · rw [if_neg hw] at hs
      cases hs
      exact h.nextWord hq rfl rfl rfl hrole.1 _
  | load e k =>
    cases hs
    exact h.load hq
  | store e k tmp =>
    cases hs
    exact h.store hq
  | leave =>
    exact h.called (c := .leaving) (f := .exit) hq rfl rfl rfl rfl
      (fun _ => hinit rfl) (fun em _ => trivial) hs
  | overflow e =>
    refine h.called (c := .overflowing e) (f := .exit) hq rfl rfl rfl rfl
      (fun _ => hinit rfl) (fun em hc => ?_) hs
    show i ∈ em.contexts
    rw [hc.contexts]
    exact hc.mem fun hf => by cases hf
  | overflowing e =>
    exact h.whenReturned (c := .lock e) hq rfl rfl rfl rfl (fun _ => hinit rfl) hrole hs
  | lock e =>
    obtain ⟨hfree, hs⟩ := Option.ite_none_right_eq_some.mp hs
    cases hs
    exact h.lock hq hfree
  | test e =>
    cases hs
    by_cases he : e = s.epochs.beginEpoch
    · rw [if_pos he]
      exact h.moveLocal hq rfl rfl rfl hcall rfl (fun _ => hinit rfl) ⟨hrole.1, hrole.2, he⟩
    · rw [if_neg he]
      exact h.moveLocal hq rfl rfl rfl hcall rfl (fun _ => hinit rfl) hrole.1
  | reset e =>
    cases hs
    exact h.reset hq
  | tryNew =>
    exact h.called (c := .waitNew) (f := .newEpoch) hq rfl rfl rfl rfl
      (fun _ => hinit rfl) (fun em _ => hrole) hs
  | waitNew =>
    rw [State.stepThread] at hs
    cases hopened : s.epochs.opened i with
    | true =>
      rw [hopened] at hs
      exact h.whenReturned (c := .unlock) hq rfl rfl rfl rfl (fun _ => hinit rfl) hrole hs
    | false =>
      rw [hopened] at hs
      exact h.whenReturned (c := .tryNew) hq rfl rfl rfl rfl (fun _ => hinit rfl) hrole hs
  | unlock =>
    cases hs
    exact h.unlock hq
  | claim n =>
    cases hs
    exact h.issue hq
  | free x =>
    cases hs
    exact h.giveBack hq
  | exiting =>
    exact h.whenReturned (c := .out) hq rfl rfl rfl rfl (fun hrun => by cases hrun) trivial hs

/-- Every step keeps the invariant, and loses no id if it meets the condition. -/
theorem Inv.step (h : Inv s) {a : Act ι} (hs : s.step a = some s') : Good (Kept s a) s s' := by
  cases a with
  | alloc i =>
    obtain ⟨hq, hs⟩ := Option.ite_none_right_eq_some.mp hs
    cases hinit : (s.tls i).initialized with
    | true =>
      rw [if_pos hinit] at hs
      cases hs
      have hidle := (h.thread i).call
      rw [hq] at hidle
      exact h.moveLocal hq rfl rfl rfl hidle rfl (fun _ => hinit) trivial
    | false =>
      rw [if_neg (by rw [hinit]; exact Bool.false_ne_true)] at hs
      exact h.register hq hinit hs
  | free i x =>
    obtain ⟨⟨hq, hx, -⟩, hs⟩ := Option.ite_none_right_eq_some.mp hs
    cases hs
    exact h.free hq hx
  | exit i =>
    obtain ⟨⟨hq, -⟩, hs⟩ := Option.ite_none_right_eq_some.mp hs
    exact h.deregister hq hs
  | manager i pick cookie =>
    obtain ⟨em, hem, rfl⟩ := Option.map_eq_some_iff.mp hs
    exact h.stepManager hem
  | step i => exact h.stepThread hs

end Steps

end XidAlloc

end PreemptDB
