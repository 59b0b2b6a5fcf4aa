/-
Allocation of XIDs (`dbcore/xid.cpp`, `dbcore/xid.h`).

The ids of the free contexts are set bits of four bitmaps.  A thread takes a whole
word of the bitmap of its epoch, and issues XIDs from it; `xid_free` gives the bit
back to the bitmap of the epoch in which the XID was issued.  When the words of a
bitmap are used up, a thread opens the next epoch.  The epoch manager of `Epoch`
keeps the threads that are in the middle of this within two epochs of each other.

* `State` — the bitmaps, the contexts' owners and the threads, with the manager;
* `step` — one access to a shared variable, or one step inside the manager;
* `getContext` — `xid_get_context`;
* `Place`, `State.At` — where the id of a context is.
-/
import PreemptDB.Addresses
import PreemptDB.EpochEffect
import PreemptDB.XidContext

namespace PreemptDB

namespace XidAlloc

/-- `NCONTEXTS`. -/
def ncontexts : ℕ := 128 * 32768

/-- `NBITMAPS`. -/
def nbitmaps : ℕ := 4

/-- `BITS_PER_WORD`. -/
def bitsPerWord : ℕ := 64

/-- `NWORDS`. -/
def nwords : ℕ := ncontexts / 2 / bitsPerWord

/-- `context_data`; a word is the set of its bits. -/
structure ContextData where
  epoch : ℕ
  bitmap : Finset ℕ
  baseId : ℕ
  initialized : Bool
  deriving DecidableEq

/-- The next access of a thread in `xid_alloc`, `xid_free` or at its end; the arguments
are local variables. -/
inductive Pc
  | out
  /-- in `context_init` -/
  | initing
  | head
  /-- in `context_enter` -/
  | entering
  | readWidx (e : ℕ)
  | cas (e i : ℕ)
  -- the two halves of `std::swap`
  | load (e i : ℕ)
  | store (e i : ℕ) (tmp : Finset ℕ)
  | leave
  /-- in `context_exit` -/
  | leaving
  -- the words of the epoch are used up
  | overflow (e : ℕ)
  | overflowing (e : ℕ)
  | lock (e : ℕ)
  | test (e : ℕ)
  | reset (e : ℕ)
  | tryNew
  /-- in `new_epoch` -/
  | waitNew
  | unlock
  -- `take_one`, after the bit is taken
  | claim (id : ℕ)
  -- `xid_free`, after the owner is cleared
  | free (x : Xid)
  /-- in `context_fini` -/
  | exiting
  deriving DecidableEq

/-- The allocator.  `taken`, `issued` and `live` are ghosts: the words that were taken,
with their epochs, the XIDs in the order in which they were issued, and those that are
not yet freed. -/
structure State (ι : Type*) where
  epochs : Epoch.State ι
  data : ℕ → ℕ → Finset ℕ
  widx : ℕ → ℕ
  owner : ℕ → Option FatPtr
  mutex : Option ι
  tls : ι → ContextData
  pc : ι → Pc
  taken : Finset (ℕ × ℕ)
  issued : List Xid
  live : Finset Xid

/-- `XID::make` for the epoch and the id. -/
def toPtr (x : Xid) : FatPtr := XID.make x.epoch x.localId

/-- The id of the first context of word `i` in epoch `e`. -/
def baseOf (e i : ℕ) : ℕ := (e % 2) * ncontexts / 2 + i * bitsPerWord

/-- The word in which the bit of a context is. -/
def wordOf (id : ℕ) : ℕ := (id / bitsPerWord) % nwords

/-- What a thread does: it calls `xid_alloc` or `xid_free`, it ends, it takes a step
inside the epoch manager, or it takes its next step. -/
inductive Act (ι : Type*)
  | alloc (i : ι)
  | free (i : ι) (x : Xid)
  | exit (i : ι)
  | manager (i pick : ι) (cookie : Bool)
  | step (i : ι)

namespace State

variable {ι : Type*} [DecidableEq ι]

/-- After `global_init`. -/
def init : State ι where
  epochs := .init
  data b _ := if b < 2 then Finset.range bitsPerWord else ∅
  widx _ := 0
  owner _ := none
  mutex := none
  tls _ := ⟨0, ∅, 0, false⟩
  pc _ := .out
  taken := ∅
  issued := []
  live := ∅

def goto (s : State ι) (i : ι) (p : Pc) : State ι := { s with pc := Function.update s.pc i p }

def setTls (s : State ι) (i : ι) (c : ContextData) : State ι :=
  { s with tls := Function.update s.tls i c }

def setWord (s : State ι) (b k : ℕ) (w : Finset ℕ) : State ι :=
  { s with data := Function.update s.data b (Function.update (s.data b) k w) }

def setWidx (s : State ι) (b k : ℕ) : State ι := { s with widx := Function.update s.widx b k }

def setOwner (s : State ι) (id : ℕ) (o : Option FatPtr) : State ι :=
  { s with owner := Function.update s.owner id o }

/-- Call a function of the epoch manager. -/
def call (s : State ι) (i : ι) (f : Epoch.Call) (p : Pc) : Option (State ι) :=
  (s.epochs.step (.call i f)).map fun em => { s with epochs := em }.goto i p

/-- A function of the epoch manager has returned. -/
def returned (s : State ι) (i : ι) : Bool :=
  match s.epochs.pc i with
  | .idle => true
  | _ => false

def whenReturned (s : State ι) (i : ι) (p : Pc) : Option (State ι) :=
  if s.returned i then some (s.goto i p) else none

/-- `take_one` clears the lowest bit and computes the id. -/
def takeOne (s : State ι) (i : ι) (h : (s.tls i).bitmap.Nonempty) : State ι :=
  let b := (s.tls i).bitmap.min' h
  (s.setTls i { s.tls i with bitmap := (s.tls i).bitmap.erase b }).goto i
    (.claim ((s.tls i).baseId + b))

/-- `take_one` stores the owner, and the XID is returned. -/
def issue (s : State ι) (i : ι) (id : ℕ) : State ι :=
  let x : Xid := ⟨(s.tls i).epoch, id⟩
  ({ s with issued := s.issued ++ [x], live := Insert.insert x s.live }.setOwner id
    (some (toPtr x))).goto i .out

/-- `widx` was read or the swap has failed: is there a word left? -/
def nextWord (e k : ℕ) : Pc := if k < nwords then .cas e k else .overflow e

/-- The swap of `widx` has succeeded. -/
def takeWord (s : State ι) (i : ι) (e k : ℕ) : State ι :=
  (({ s with taken := Insert.insert (e, k) s.taken }.setWidx (e % nbitmaps) (k + 1)).setTls i
    { s.tls i with epoch := e, baseId := baseOf e k }).goto i (.load e k)

/-- The bit goes back to the bitmap of the XID's epoch. -/
def giveBack (s : State ι) (i : ι) (x : FatPtr) : State ι :=
  let b := XID.epoch x % nbitmaps
  let id := XID.localId x
  (s.setWord b (wordOf id) (Insert.insert (id % bitsPerWord) (s.data b (wordOf id)))).goto i .out

def stepThread (s : State ι) (i : ι) : Pc → Option (State ι)
  | .out => none
  | .initing => s.whenReturned i .head
  | .head =>
    if h : (s.tls i).bitmap.Nonempty then some (s.takeOne i h) else s.call i .enter .entering
  | .entering =>
    match s.epochs.region i with
    | some e => s.whenReturned i (.readWidx e)
    | none => none
  | .readWidx e => some (s.goto i (nextWord e (s.widx (e % nbitmaps))))
  | .cas e k =>
    if s.widx (e % nbitmaps) = k then some (s.takeWord i e k)
    else some (s.goto i (nextWord e (s.widx (e % nbitmaps))))
  | .load e k =>
    some ((s.setTls i { s.tls i with bitmap := s.data (e % nbitmaps) k }).goto i
      (.store e k (s.tls i).bitmap))
  | .store e k tmp => some ((s.setWord (e % nbitmaps) k tmp).goto i .leave)
  | .leave => s.call i .exit .leaving
  | .leaving => s.whenReturned i .head
  | .overflow e => s.call i .exit (.overflowing e)
  | .overflowing e => s.whenReturned i (.lock e)
  | .lock e => if s.mutex = none then some ({ s with mutex := some i }.goto i (.test e)) else none
  | .test e => some (s.goto i (if e = s.epochs.beginEpoch then .reset e else .unlock))
  | .reset e => some ((s.setWidx ((e + 1) % nbitmaps) 0).goto i .tryNew)
  | .tryNew => s.call i .newEpoch .waitNew
  | .waitNew => s.whenReturned i (if s.epochs.opened i then .unlock else .tryNew)
  | .unlock => some ({ s with mutex := none }.goto i .head)
  | .claim id => some (s.issue i id)
  | .free x => some (s.giveBack i (toPtr x))
  | .exiting => s.whenReturned i .out

def step (s : State ι) : Act ι → Option (State ι)
  | .alloc i =>
    if s.pc i = .out then
      if (s.tls i).initialized then some (s.goto i .head)
      else (s.setTls i ⟨0, ∅, 0, true⟩).call i .init .initing
    else none
  | .free i x =>
    -- a live XID is freed once
    if s.pc i = .out ∧ x ∈ s.live ∧ s.owner (XID.localId (toPtr x)) = some (toPtr x) then
      some (({ s with live := s.live.erase x }.setOwner (XID.localId (toPtr x)) none).goto i
        (.free x))
    else none
  | .exit i =>
    if s.pc i = .out ∧ (s.tls i).initialized = true then
      (s.setTls i { s.tls i with initialized := false }).call i .fini .exiting
    else none
  | .manager i pick cookie =>
    (s.epochs.step (.step i pick cookie)).map fun em => { s with epochs := em }
  | .step i => s.stepThread i (s.pc i)

/-- `xid_get_context`: the index of the context, or `nullptr`. -/
def getContext (s : State ι) (x : FatPtr) : Option ℕ :=
  match s.owner (XID.localId x) with
  | none => none
  | some o =>
    if XID.epoch o < XID.epoch x ∨ XID.epoch x + 3 ≤ XID.epoch o then none
    else some (XID.localId x)

end State

/-- A thread is about to store the second half of a swap in word `k` of bitmap `b`. -/
def Pc.overwrites (b k : ℕ) : Pc → Bool
  | .store e i _ => e % nbitmaps = b && i = k
  | _ => false

/-- Where the id of a context can be. -/
inductive Place (ι : Type*)
  | bitmap (b : ℕ)
  | word (i : ι) (e : ℕ)
  -- the XID is being issued, issued, or being freed
  | claim (i : ι) (e : ℕ)
  | live (e : ℕ)
  | free (i : ι) (e : ℕ)

/-- The bitmap that a place belongs to. -/
def Place.row {ι : Type*} : Place ι → ℕ
  | .bitmap b => b
  | .word _ e | .claim _ e | .live e | .free _ e => e % nbitmaps

/-- The id is at a place.  The bit in a word that is about to be overwritten does not
count, because it is already in the local word of a thread. -/
def State.At {ι : Type*} (s : State ι) (id : ℕ) : Place ι → Prop
  | .bitmap b => b < nbitmaps ∧ b % 2 = id / (ncontexts / 2) ∧
      id % bitsPerWord ∈ s.data b (wordOf id) ∧ ∀ i, (s.pc i).overwrites b (wordOf id) = false
  | .word i e => (s.tls i).initialized = true ∧ (s.tls i).epoch = e ∧
      ∃ b ∈ (s.tls i).bitmap, (s.tls i).baseId + b = id
  | .claim i e => s.pc i = .claim id ∧ (s.tls i).epoch = e
  | .live e => ⟨e, id⟩ ∈ s.live
  | .free i e => s.pc i = .free ⟨e, id⟩

section Numbers

theorem baseOf_eq (e k : ℕ) : baseOf e k = e % 2 * 2097152 + k * 64 := by
  unfold baseOf ncontexts bitsPerWord
  omega

theorem wordOf_eq (id : ℕ) : wordOf id = id / 64 % 32768 := rfl

theorem half_eq : ncontexts / 2 = 2097152 := rfl

variable {e k b id : ℕ}

/-- The ids of a word. -/
theorem baseOf_add (hk : k < nwords) (hb : b < bitsPerWord) :
    baseOf e k + b < ncontexts ∧ (baseOf e k + b) / (ncontexts / 2) = e % 2 ∧
      wordOf (baseOf e k + b) = k ∧ (baseOf e k + b) % bitsPerWord = b := by
  have hk' : k < 32768 := hk
  have hb' : b < 64 := hb
  rw [baseOf_eq, wordOf_eq, half_eq, show ncontexts = 4194304 from rfl,
    show bitsPerWord = 64 from rfl]
  refine ⟨?_, ?_, ?_, ?_⟩ <;> omega

/-- An id is given by its half, its word and its bit. -/
theorem eq_baseOf_add (hid : id < ncontexts) (he : e % 2 = id / (ncontexts / 2)) :
    baseOf e (wordOf id) + id % bitsPerWord = id := by
  have hid' : id < 4194304 := hid
  rw [half_eq] at he
  rw [baseOf_eq, wordOf_eq, show bitsPerWord = 64 from rfl]
  omega

theorem mod_nbitmaps (e : ℕ) : e % nbitmaps % 2 = e % 2 := by
  rw [show nbitmaps = 4 from rfl]
  omega

theorem baseOf_inj {k' : ℕ} (h : baseOf e k = baseOf e k') : k = k' := by
  rw [baseOf_eq, baseOf_eq] at h
  omega

variable {x : Xid}

theorem epoch_toPtr (hx : x.localId < ncontexts) : XID.epoch (toPtr x) = x.epoch % 2 ^ 16 :=
  XID.epoch_make _ (lt_trans hx (by decide))

theorem localId_toPtr (hx : x.localId < ncontexts) : XID.localId (toPtr x) = x.localId :=
  XID.localId_make _ (lt_trans hx (by decide))

/-- The word keeps 16 bits of the epoch, so it tells the bitmap. -/
theorem epoch_toPtr_mod (hx : x.localId < ncontexts) :
    XID.epoch (toPtr x) % nbitmaps = x.epoch % nbitmaps := by
  rw [epoch_toPtr hx, show nbitmaps = 4 from rfl]
  omega

end Numbers

end XidAlloc

end PreemptDB
