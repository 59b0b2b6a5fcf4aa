/-
The files of the segments of a log (`create_segment` in `dbcore/dlog.cpp`).

`segments` is a vector of `segment`s, which close their descriptor when they are
destroyed.  The type has a destructor and so no implicit move constructor: when
the vector grows, its elements are copied and the originals are destroyed, which
closes the descriptors that the copies still hold.  Later files get the same
descriptors again.

* `segment_files` — the descriptors are right as long as the vector has not grown;
* `shared_descriptor` — four segments, two of them with one descriptor.
-/
import PreemptDB.FdTable
import PreemptDB.StepRun

namespace PreemptDB

open StepRun

/-- What a descriptor can stand for: `directory` is opened by `opendir` in
`create_segment` and is never closed. -/
inductive OpenFile
  | other
  | directory
  | segment (i : ℕ)
  deriving DecidableEq, Repr

/-- The descriptor table of the process, and `fd` of the elements of `segments`. -/
structure LogFiles where
  table : FdTable OpenFile
  fds : List ℕ
  capacity : ℕ

inductive FileAct
  /-- `create_segment` -/
  | create
  /-- another file is opened -/
  | openOther
  /-- another file is closed -/
  | closeOther (fd : ℕ)
  deriving DecidableEq, Repr

namespace LogFiles

/-- `create_segment`; `grow` is the growth of the capacity of a vector.  The new element
is constructed before the others are relocated. -/
def createSegment (grow : ℕ → ℕ) (p : LogFiles) : LogFiles :=
  let opened := p.table.insert .directory
  let fd := opened.lowest
  let table := opened.insert (.segment p.fds.length)
  if p.fds.length < p.capacity then { p with table := table, fds := p.fds ++ [fd] }
  else
    -- the copies keep the descriptors, the destructors close them
    { table := table.closeAll p.fds, fds := p.fds ++ [fd], capacity := grow p.capacity }

def step (grow : ℕ → ℕ) (p : LogFiles) : FileAct → Option LogFiles
  | .create => some (p.createSegment grow)
  | .openOther => some { p with table := p.table.insert .other }
  | .closeOther fd =>
    if p.table.get fd = some .other then some { p with table := p.table.close fd } else none

/-- Every segment has a descriptor of its own, of the file that was created for it. -/
structure Valid (p : LogFiles) : Prop where
  file : ∀ i fd, p.fds[i]? = some fd → p.table.get fd = some (.segment i)
  distinct : p.fds.Nodup

variable {grow : ℕ → ℕ} {p p' : LogFiles} {t : FdTable OpenFile}

theorem get_insert_other {f : OpenFile} (hf : ∀ i, f ≠ .segment i) (fd i : ℕ) :
    (t.insert f).get fd = some (.segment i) ↔ t.get fd = some (.segment i) := by
  by_cases h : fd = t.lowest
  · rw [h, t.get_insert_self, t.get_lowest]
    constructor
    · exact fun heq => absurd (Option.some.inj heq) (hf i)
    · exact fun heq => absurd heq.symm (Option.some_ne_none _)
  · rw [t.get_insert_of_ne f h]

/-- The files of segments after the two that `create_segment` opens. -/
theorem get_created (n fd i : ℕ) :
    ((t.insert .directory).insert (.segment n)).get fd = some (.segment i) ↔
      fd = (t.insert .directory).lowest ∧ i = n ∨ t.get fd = some (.segment i) := by
  have hold := get_insert_other (t := t) (f := .directory) (fun _ h => by cases h) fd i
  by_cases h : fd = (t.insert .directory).lowest
  · rw [← hold, h, FdTable.get_insert_self, FdTable.get_lowest]
    constructor
    · intro heq
      cases heq
      exact .inl ⟨rfl, rfl⟩
    · rintro (⟨-, rfl⟩ | heq)
      · rfl
      · cases heq
  · rw [FdTable.get_insert_of_ne _ _ h, hold]
    exact ⟨.inr, fun hor => hor.resolve_left fun hl => h hl.1⟩

theorem get_close_other {fd' : ℕ} (h : t.get fd' = some .other) (fd i : ℕ) :
    (t.close fd').get fd = some (.segment i) ↔ t.get fd = some (.segment i) := by
  by_cases hfd : fd = fd'
  · rw [hfd, t.get_close_self, h]
    constructor
    · exact fun heq => absurd heq.symm (Option.some_ne_none _)
    · intro heq
      cases heq
  · rw [t.get_close_of_ne hfd]

/-- Up to the first growth of a vector with elements all files of segments are there;
afterwards the file of the first segment is lost. -/
structure Inv (grow : ℕ → ℕ) (p : LogFiles) : Prop where
  capacity : p.fds.length ≤ grow 0 → p.fds = [] ∧ p.capacity = 0 ∨ p.capacity = grow 0
  files : p.fds.length ≤ grow 0 → ∀ fd i, p.table.get fd = some (.segment i) ↔ p.fds[i]? = some fd
  lost : grow 0 < p.fds.length → ∀ fd, p.table.get fd ≠ some (.segment 0)

theorem Inv.congr (h : Inv grow p) (hfds : p'.fds = p.fds) (hcap : p'.capacity = p.capacity)
    (hget : ∀ fd i, p'.table.get fd = some (.segment i) ↔ p.table.get fd = some (.segment i)) :
    Inv grow p' := by
  refine ⟨?_, fun hle fd i => ?_, fun hlt fd hfd => ?_⟩
  · rw [hfds, hcap]
    exact h.capacity
  · rw [hget, hfds]
    exact h.files (hfds ▸ hle) fd i
  · exact h.lost (hfds ▸ hlt) fd ((hget fd 0).mp hfd)

theorem getElem?_concat (l : List ℕ) (x y i : ℕ) :
    (l ++ [x])[i]? = some y ↔ y = x ∧ i = l.length ∨ l[i]? = some y := by
  rcases lt_trichotomy i l.length with hi | hi | hi
  · rw [List.getElem?_append_left hi]
    exact ⟨.inr, fun hor => hor.resolve_left fun hl => absurd hl.2 hi.ne⟩
  · rw [hi, List.getElem?_concat_length, List.getElem?_eq_none le_rfl]
    refine ⟨fun heq => .inl ⟨(Option.some.inj heq).symm, rfl⟩, fun hor => ?_⟩
    rcases hor with ⟨rfl, -⟩ | heq
    · rfl
    · cases heq
  · rw [List.getElem?_eq_none hi.le, List.getElem?_eq_none (by
      rw [List.length_append, List.length_singleton]; omega)]
    constructor
    · intro heq
      cases heq
    · rintro (⟨-, rfl⟩ | heq)
      · exact absurd hi (lt_irrefl _)
      · cases heq

/-- The vector has room, or it is empty. -/
theorem Inv.append (h : Inv grow p) (hle : p.fds.length + 1 ≤ grow 0) :
    Inv grow ⟨(p.table.insert .directory).insert (.segment p.fds.length),
      p.fds ++ [(p.table.insert .directory).lowest], grow 0⟩ := by
  refine ⟨fun _ => .inr rfl, fun _ fd i => ?_, fun hlt => ?_⟩
  · rw [get_created, getElem?_concat, h.files (by omega)]
  · rw [List.length_append, List.length_singleton] at hlt
    omega

/-- The vector grows, or has grown before. -/
theorem Inv.relocate (h : Inv grow p) (hpos : 0 < p.fds.length) (hle : grow 0 ≤ p.fds.length)
    (capacity : ℕ) {table : FdTable OpenFile}
    (htable : ∀ fd, table.get fd = some (.segment 0) → (grow 0 = p.fds.length → fd ∉ p.fds) ∧
      ((p.table.insert .directory).insert (.segment p.fds.length)).get fd = some (.segment 0)) :
    Inv grow ⟨table, p.fds ++ [(p.table.insert .directory).lowest], capacity⟩ := by
  have hlen : (p.fds ++ [(p.table.insert .directory).lowest]).length = p.fds.length + 1 :=
    List.length_append
  refine ⟨fun hle' => ?_, fun hle' => ?_, fun _ fd hfd => ?_⟩
  · rw [hlen] at hle'
    omega
  · rw [hlen] at hle'
    omega
  · obtain ⟨hnot, hget⟩ := htable fd hfd
    rcases (get_created _ _ _).mp hget with ⟨-, h0⟩ | hold
    · exact absurd h0 hpos.ne
    · rcases hle.eq_or_lt with heq | hlt
      · -- the only descriptor of the file has been closed
        exact hnot heq (List.mem_of_getElem? ((h.files heq.ge fd 0).mp hold))
      · exact h.lost hlt fd hold

theorem Inv.createSegment (h : Inv grow p) (hgrow : ∀ n, n < grow n) :
    Inv grow (p.createSegment grow) := by
  have hgrow0 := hgrow 0
  rw [LogFiles.createSegment]
  by_cases hle : p.fds.length ≤ grow 0
  · rcases h.capacity hle with ⟨hnil, hcap⟩ | hcap
    · have hlen : p.fds.length = 0 := by rw [hnil]; rfl
      have happ := h.append (by omega)
      rw [if_neg (by omega), hcap]
      rw [hnil] at happ ⊢
      exact happ
    · by_cases hlt : p.fds.length < grow 0
      · have happ := h.append hlt
        rw [if_pos (hcap ▸ hlt)]
        exact hcap ▸ happ
      · rw [if_neg (hcap ▸ hlt)]
        refine h.relocate (by omega) (by omega) _ fun fd hfd => ?_
        rw [FdTable.get_closeAll] at hfd
        obtain ⟨hnot, hget⟩ := Option.ite_none_left_eq_some.mp hfd
        exact ⟨fun _ => hnot, hget⟩
  · have hlt : grow 0 < p.fds.length := Nat.not_le.mp hle
    split
    · exact h.relocate (by omega) hlt.le _ fun fd hfd => ⟨fun heq => absurd heq hlt.ne, hfd⟩
    · refine h.relocate (by omega) hlt.le _ fun fd hfd => ?_
      rw [FdTable.get_closeAll] at hfd
      obtain ⟨hnot, hget⟩ := Option.ite_none_left_eq_some.mp hfd
      exact ⟨fun _ => hnot, hget⟩

theorem Inv.step (h : Inv grow p) (hgrow : ∀ n, n < grow n) {a : FileAct}
    (hs : p.step grow a = some p') : Inv grow p' := by
  cases a with
  | create =>
    cases hs
    exact h.createSegment hgrow
  | openOther =>
    cases hs
    exact h.congr rfl rfl (get_insert_other fun _ heq => by cases heq)
  | closeOther fd =>
    obtain ⟨hfd, hs⟩ := Option.ite_none_right_eq_some.mp hs
    cases hs
    exact h.congr rfl rfl (get_close_other hfd)

theorem Inv.valid_iff (h : Inv grow p) : p.Valid ↔ p.fds.length ≤ grow 0 := by
  refine ⟨fun hv => ?_, fun hle => ⟨fun i fd hfd => (h.files hle fd i).mpr hfd, ?_⟩⟩
  · by_contra hgt
    have hlt : grow 0 < p.fds.length := Nat.not_le.mp hgt
    have hget : p.fds[0]? = some p.fds[0] := List.getElem?_eq_getElem (by omega)
    exact h.lost hlt _ (hv.file 0 _ hget)
  · rw [List.nodup_iff_getElem?_ne_getElem?]
    intro i j hij hj heq
    have hgetj : p.fds[j]? = some p.fds[j] := List.getElem?_eq_getElem hj
    have hi := (h.files hle _ i).mpr (heq.trans hgetj)
    have hj' := (h.files hle _ j).mpr hgetj
    rw [hi] at hj'
    cases hj'
    exact absurd hij (lt_irrefl i)

theorem createSegment_length (p : LogFiles) :
    (p.createSegment grow).fds.length = p.fds.length + 1 := by
  rw [LogFiles.createSegment]
  split <;> exact List.length_append

theorem step_length {a : FileAct} (hs : p.step grow a = some p') :
    p'.fds.length = p.fds.length + [a].count .create := by
  cases a with
  | create =>
    cases hs
    exact p.createSegment_length
  | openOther =>
    cases hs
    rfl
  | closeOther fd =>
    obtain ⟨-, hs⟩ := Option.ite_none_right_eq_some.mp hs
    cases hs
    rfl

theorem run_length {acts : List FileAct} (hr : run (step grow) p acts = some p') :
    p'.fds.length = p.fds.length + acts.count .create := by
  induction acts generalizing p with
  | nil =>
    rw [run_nil, Option.some_inj] at hr
    rw [hr]
    rfl
  | cons a acts ih =>
    obtain ⟨p₁, hs, hr⟩ := run_cons_eq_some.mp hr
    have hcount : (a :: acts).count .create = [a].count .create + acts.count .create := by
      rw [← List.count_append, List.singleton_append]
    rw [ih hr, step_length hs, hcount, Nat.add_assoc]

/-- **Descriptors.**  After any number of calls of `create_segment`, between which the rest of
the process opens and closes other files, every segment has an open descriptor of its own file
and no two share one, if and only if the vector never had to grow with elements in it. -/
theorem segment_files (hgrow : ∀ n, n < grow n) (ht : ∀ fd i, t.get fd ≠ some (.segment i))
    {acts : List FileAct} (hr : run (step grow) ⟨t, [], 0⟩ acts = some p) :
    p.Valid ↔ acts.count .create ≤ grow 0 := by
  have h : Inv grow p := by
    refine run_invariant (I := Inv grow) (fun hs hi => hi.step hgrow hs) hr
      ⟨fun _ => .inl ⟨rfl, rfl⟩, fun _ fd i => ⟨fun hfd => absurd hfd (ht fd i), ?_⟩, ?_⟩
    · intro heq
      cases heq
    · intro hlt
      cases hlt
  rw [h.valid_iff, run_length hr]
  exact Eq.to_iff (congrArg (· ≤ grow 0) (Nat.zero_add _))

/-- The capacity of a vector is doubled. -/
def doubling (n : ℕ) : ℕ := n + max n 1

/-- The three standard descriptors. -/
def standardFiles : FdTable OpenFile := ⟨[some .other, some .other, some .other]⟩

theorem standardFiles_get (fd i : ℕ) : standardFiles.get fd ≠ some (.segment i) := by
  rcases fd with _ | _ | _ | fd
  all_goals
    intro h
    cases h

theorem lt_doubling (n : ℕ) : n < doubling n := by
  rw [doubling]
  omega

theorem segment_files_first : ∃ p, run (step doubling) ⟨standardFiles, [], 0⟩
    [.openOther, .create] = some p ∧ p.fds = [5] ∧ p.Valid := by
  have hr : run (step doubling) ⟨standardFiles, [], 0⟩ [.openOther, .create] = some _ := rfl
  exact ⟨_, hr, rfl, (segment_files lt_doubling standardFiles_get hr).mpr (by decide)⟩

/-- After four calls the second and the fourth segment have the same descriptor, which is of
the file of the fourth; that of the first segment is of a directory. -/
theorem shared_descriptor : ∃ p, run (step doubling) ⟨standardFiles, [], 0⟩
    [.create, .create, .create, .create] = some p ∧ p.fds = [4, 6, 7, 6] ∧
      p.table.get 6 = some (.segment 3) ∧ p.table.get 4 = some .directory ∧ ¬ p.Valid := by
  refine ⟨_, rfl, rfl, rfl, rfl, fun h => ?_⟩
  have hget : some (OpenFile.segment 3) = some (.segment 1) := h.file 1 6 rfl
  cases hget

end LogFiles

end PreemptDB
