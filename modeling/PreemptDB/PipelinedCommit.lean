/-
Durability of pipelined commit.

`get_global_durable_csn` reads the durable CSNs of the logs one after the other.
`Secured c` is what its result `c` should mean: every CSN up to `c` has been
taken, and its block is in a completed write.  A result once returned stays right
(`Advances.secured`); that it is right when it is returned follows from `Scanned`,
which says what the loop knows after each log.

The code guarantees this only under conditions (`PipeOk`): see
`durable_csn_secured`, and `released_too_early` for a run that loses a block.
-/
import PreemptDB.DurableCsn

namespace PreemptDB

open Function StepRun TlsLog

namespace Pipeline

variable {P : PipeConfig} {words : ℕ → UInt64} {s s' : Pipeline}

/-- The CSNs that the owner of log `i` has taken, in order. -/
def taken (s : Pipeline) (i : ℕ) : List ℕ := (s.log i).csns ++ (s.drawn i).toList

/-- Every CSN up to `c` has been taken and its block is in a completed write. -/
def Secured (P : PipeConfig) (s : Pipeline) (c : ℕ) : Prop :=
  c < s.currentCsn ∧
    ∀ i < P.logs, ∀ k ∈ s.taken i, k ≤ c → k ∈ (s.log i).completedCsns

instance (P : PipeConfig) (s : Pipeline) (c : ℕ) : Decidable (s.Secured P c) :=
  inferInstanceAs (Decidable (_ ∧ _))

/-- The thread is in the loop of `get_global_durable_csn`. -/
def isScanning : Option Dequeuer → Bool
  | some (.scanning ..) => true
  | _ => false

/-- The value of the word of every log was 0 at first or has been stored by `poll_flush`. -/
def Stored (P : PipeConfig) (words : ℕ → UInt64) (s : Pipeline) : Prop :=
  ∀ i < P.logs, (words i).toNat % 2 ^ 63 = 0 ∨ (s.log i).written ≠ []

instance (P : PipeConfig) (words : ℕ → UInt64) (s : Pipeline) : Decidable (s.Stored P words) :=
  inferInstanceAs (Decidable (∀ _, _ → _))

/-- No CSN is taken during a scan, none of more than 63 bits; a scan starts when
every CSN that was taken has set its dirty flag, CSN 0 is durable already, and no word
is one that `malloc` has left; `poll_flush` finds an empty buffer, and allocations do not
wrap around. -/
def PipeOk (P : PipeConfig) (words : ℕ → UInt64) (s : Pipeline) : PipeAct → Prop
  | .draw _ => s.currentCsn < 2 ^ 63 ∧ ∀ r < P.threads, isScanning (s.dequeuer r) = false
  | .proceed i => FlushOk (s.log i) .proceed
  | .scan .. => (∀ i < P.logs, s.drawn i = none) ∧ s.Secured P 0 ∧ s.Stored P words
  | _ => True

instance (P : PipeConfig) (words : ℕ → UInt64) (s : Pipeline) (a : PipeAct) :
    Decidable (s.PipeOk P words a) := by
  cases a <;> dsimp only [PipeOk] <;> infer_instance

/-- The logs and the CSNs that were taken for them. -/
structure LogsInv (P : PipeConfig) (words : ℕ → UInt64) (s : Pipeline) : Prop where
  buf : ∀ i, BufInv (s.log i)
  word : ∀ i, WordInv (words i).toNat (s.log i)
  sorted : ∀ i, (s.taken i).Pairwise (· < ·)
  lt : ∀ {i k}, k ∈ s.taken i → k < s.currentCsn
  all : ∀ k < s.currentCsn, ∃ i < P.logs, k ∈ s.taken i
  limit : s.currentCsn ≤ 2 ^ 63

theorem logsInv_init (P : PipeConfig) (length : ℕ) (words : ℕ → UInt64) :
    LogsInv P words (init length words) where
  buf _ := ⟨rfl, bufInv_init.bound, bufInv_init.inside, bufInv_init.covered, bufInv_init.kept,
    bufInv_init.fits⟩
  word i := wordInv_init (words i).toNat_lt
  sorted _ := List.Pairwise.nil
  lt h := by cases h
  all _ h := absurd h (Nat.not_lt_zero _)
  limit := Nat.zero_le _

/-- What every step does to the CSNs: new ones are larger, completed ones stay. -/
structure Advances (s s' : Pipeline) : Prop where
  currentCsn : s.currentCsn ≤ s'.currentCsn
  taken : ∀ {i k}, k ∈ s'.taken i → k ∈ s.taken i ∨ s.currentCsn ≤ k
  completed : ∀ i, (s.log i).completedCsns ⊆ (s'.log i).completedCsns
  written : ∀ i, (s.log i).written ⊆ (s'.log i).written

/-- A result that was right stays right. -/
theorem Advances.secured (h : Advances s s') {c : ℕ} (hc : s.Secured P c) : s'.Secured P c := by
  refine ⟨hc.1.trans_le h.currentCsn, fun i hi k hk hle => h.completed i ?_⟩
  rcases h.taken hk with hk | hk
  · exact hc.2 i hi k hk hle
  · have := hc.1
    omega

theorem Advances.stored (h : Advances s s') (hs : s.Stored P words) : s'.Stored P words :=
  fun i hi => (hs i hi).imp_right fun hne hnil =>
    hne (List.subset_nil.mp (hnil ▸ h.written i))

/-- A step that takes no CSN. -/
theorem LogsInv.of_taken (h : LogsInv P words s) (htaken : ∀ i, s'.taken i = s.taken i)
    (hcsn : s'.currentCsn = s.currentCsn) (hbuf : ∀ i, BufInv (s'.log i))
    (hword : ∀ i, WordInv (words i).toNat (s'.log i)) : LogsInv P words s' where
  buf := hbuf
  word := hword
  sorted i := htaken i ▸ h.sorted i
  lt {i k} hk := by
    rw [hcsn]
    rw [htaken] at hk
    exact h.lt hk
  all k hk := by
    rw [hcsn] at hk
    obtain ⟨i, hi, hin⟩ := h.all k hk
    exact ⟨i, hi, htaken i ▸ hin⟩
  limit := hcsn ▸ h.limit

theorem Advances.of_taken (htaken : ∀ i, s'.taken i = s.taken i)
    (hcsn : s'.currentCsn = s.currentCsn)
    (hcompleted : ∀ i, (s.log i).completedCsns ⊆ (s'.log i).completedCsns)
    (hwritten : ∀ i, (s.log i).written ⊆ (s'.log i).written) : Advances s s' :=
  ⟨hcsn.ge, fun hk => .inl (htaken _ ▸ hk), hcompleted, hwritten⟩

/-! ### Steps of the logs -/

theorem stepLog_eq_some {i : ℕ} {a : LogAct} (h : s.stepLog P i a = some s') :
    i < P.logs ∧ ∃ L, logStep P.log (s.log i) a = some L ∧
      s' = { s with log := Function.update s.log i L } := by
  rw [stepLog] at h
  split_ifs at h with hi
  obtain ⟨L, hL, rfl⟩ := Option.map_eq_some_iff.mp h
  exact ⟨hi, L, hL, rfl⟩

/-- A step of log `i`, which may pass a CSN from the owner to the log. -/
theorem LogsInv.logStep (h : LogsInv P words s) {i : ℕ} {a : LogAct} {L : TlsLog}
    (hL : logStep P.log (s.log i) a = some L) (hok : FlushOk (s.log i) a)
    (hlog : s'.log = Function.update s.log i L) (hcsn : s'.currentCsn = s.currentCsn)
    (hi : a.csn?.toList ++ (s'.drawn i).toList = (s.drawn i).toList)
    (hne : ∀ j, j ≠ i → s'.drawn j = s.drawn j) : LogsInv P words s' ∧ Advances s s' := by
  obtain ⟨hcsns, hcompleted⟩ := logStep_csns (h.buf i) hL
  have hlt : ∀ k ∈ (s.log i).csns, k < 2 ^ 63 := by
    intro k hk
    exact (h.lt (List.mem_append_left _ hk)).trans_le h.limit
  have hbuf : BufInv L := (h.buf i).step hL fun ha hpc => by
    subst ha
    exact (hok rfl).1 _ (by rw [hpc]; exact rfl)
  have hwritten := (logStep_done (h.buf i) hL).1
  have hword : WordInv (words i).toNat L := (h.word i).step (h.buf i) hlt hok hL
  have hself : s'.log i = L := by rw [hlog, update_self]
  have hother : ∀ j, j ≠ i → s'.log j = s.log j := by
    intro j hj
    rw [hlog, update_of_ne hj]
  have htaken : ∀ j, s'.taken j = s.taken j := by
    intro j
    by_cases hj : j = i
    · rw [hj, taken, taken, hself, hcsns, List.append_assoc, hi]
    · rw [taken, taken, hother j hj, hne j hj]
  refine ⟨h.of_taken htaken hcsn (fun j => ?_) fun j => ?_,
    .of_taken htaken hcsn (fun j => ?_) fun j => ?_⟩
  all_goals by_cases hj : j = i
  · rwa [hj, hself]
  · rw [hother j hj]
    exact h.buf j
  · rwa [hj, hself]
  · rw [hother j hj]
    exact h.word j
  · rwa [hj, hself]
  · rw [hother j hj]
    exact List.Subset.refl _
  · rwa [hj, hself]
  · rw [hother j hj]
    exact List.Subset.refl _

/-- The owner of log `i` takes the next CSN. -/
theorem LogsInv.draw (h : LogsInv P words s) {i : ℕ} (hi : i < P.logs) (hnone : s.drawn i = none)
    (hlim : s.currentCsn < 2 ^ 63) (hlog : s'.log = s.log)
    (hcsn : s'.currentCsn = s.currentCsn + 1)
    (hdrawn : s'.drawn = Function.update s.drawn i (some s.currentCsn)) :
    LogsInv P words s' ∧ Advances s s' := by
  have hself : s'.taken i = s.taken i ++ [s.currentCsn] := by
    rw [taken, taken, hlog, hdrawn, update_self, hnone, Option.toList_none,
      List.append_nil, Option.toList_some]
  have hother : ∀ j, j ≠ i → s'.taken j = s.taken j := by
    intro j hj
    rw [taken, taken, hlog, hdrawn, update_of_ne hj]
  have hmem : ∀ {j k}, k ∈ s'.taken j → k ∈ s.taken j ∨ k = s.currentCsn := by
    intro j k hk
    by_cases hj : j = i
    · rw [hj, hself, List.mem_append, List.mem_singleton] at hk
      rwa [hj]
    · rw [hother j hj] at hk
      exact .inl hk
  refine ⟨⟨hlog ▸ h.buf, hlog ▸ h.word, fun j => ?_, fun hk => ?_, fun k hk => ?_, by omega⟩,
    ⟨by omega, fun hk => (hmem hk).imp id fun h => h.ge, fun _ => hlog ▸ List.Subset.refl _,
      fun _ => hlog ▸ List.Subset.refl _⟩⟩
  · by_cases hj : j = i
    · rw [hj, hself, List.pairwise_append]
      refine ⟨h.sorted i, List.pairwise_singleton _ _, fun a ha b hb => ?_⟩
      rw [List.mem_singleton.mp hb]
      exact h.lt ha
    · rw [hother j hj]
      exact h.sorted j
  · rcases hmem hk with hk | hk
    · have := h.lt hk
      omega
    · omega
  · rcases Nat.lt_succ_iff_lt_or_eq.mp (hcsn ▸ hk) with hk | hk
    · obtain ⟨j, hj, hin⟩ := h.all k hk
      refine ⟨j, hj, ?_⟩
      by_cases hji : j = i
      · rw [hji, hself]
        exact List.mem_append_left _ (hji ▸ hin)
      · rwa [hother j hji]
    · refine ⟨i, hi, ?_⟩
      rw [hself, hk]
      exact List.mem_append_right _ (List.mem_singleton_self _)

/-- A step that changes neither logs nor CSNs. -/
theorem LogsInv.same (h : LogsInv P words s) (hlog : s'.log = s.log) (hdrawn : s'.drawn = s.drawn)
    (hcsn : s'.currentCsn = s.currentCsn) : LogsInv P words s' ∧ Advances s s' := by
  have htaken : ∀ j, s'.taken j = s.taken j := by
    intro j
    rw [taken, taken, hlog, hdrawn]
  exact ⟨h.of_taken htaken hcsn (hlog ▸ h.buf) (hlog ▸ h.word),
    .of_taken htaken hcsn (fun _ => hlog ▸ List.Subset.refl _) fun _ => hlog ▸ List.Subset.refl _⟩

/-- Every step keeps the logs. -/
theorem LogsInv.step (h : LogsInv P words s) {a : PipeAct} (hok : s.PipeOk P words a)
    (hs : s.step P a = some s') : LogsInv P words s' ∧ Advances s s' := by
  cases a with
  | draw i =>
    simp only [Pipeline.step] at hs
    split_ifs at hs with hg
    cases hs
    exact h.draw hg.1 hg.2.1 hok.1 rfl rfl rfl
  | allocate i payload =>
    simp only [Pipeline.step] at hs
    split at hs
    · rename_i csn hcsn
      obtain ⟨-, L, hL, rfl⟩ := stepLog_eq_some hs
      refine h.logStep hL nofun rfl rfl ?_ fun j hj => update_of_ne hj ..
      show [csn] ++ (Function.update s.drawn i none i).toList = _
      rw [hcsn, update_self]
      rfl
    · cases hs
  | flush _ _ | complete _ =>
    obtain ⟨-, L, hL, rfl⟩ := stepLog_eq_some hs
    exact h.logStep hL nofun rfl rfl rfl fun _ _ => rfl
  | proceed i =>
    obtain ⟨-, L, hL, rfl⟩ := stepLog_eq_some hs
    exact h.logStep hL hok rfl rfl rfl fun _ _ => rfl
  | enqueue i csn | extend i =>
    cases hs
    exact h.same rfl rfl rfl
  | scan r target =>
    simp only [Pipeline.step] at hs
    split_ifs at hs
    cases hs
    exact h.same rfl rfl rfl
  | read r =>
    simp only [Pipeline.step] at hs
    split at hs
    · split_ifs at hs
      cases hs
      exact h.same rfl rfl rfl
    · cases hs
  | finish r =>
    simp only [Pipeline.step] at hs
    split at hs
    · rw [Option.ite_none_left_eq_some] at hs
      cases hs.2
      exact h.same rfl rfl rfl
    · cases hs
  | release r =>
    simp only [Pipeline.step] at hs
    split at hs
    · obtain ⟨q, -, rfl⟩ := Option.map_eq_some_iff.mp hs
      exact h.same rfl rfl rfl
    · cases hs

/-! ### The loop of `get_global_durable_csn` -/

/-- What the loop knows before it reads log `i`.  No CSN was taken since it began,
so nothing that it has read becomes wrong. -/
structure Scanned (P : PipeConfig) (words : ℕ → UInt64) (s : Pipeline) (i : ℕ) (found : Bool)
    (minDirty maxClean : ℕ) : Prop where
  drawn : ∀ j < P.logs, s.drawn j = none
  zero : s.Secured P 0
  stored : s.Stored P words
  read : ∀ j < P.logs, j < i → ∀ k ∈ (s.log j).csns, k ≤ minDirty →
    k ∈ (s.log j).completedCsns
  notFound : found = false → minDirty = 2 ^ 64 - 1
  dirty : found = true → minDirty < s.currentCsn
  clean : maxClean < s.currentCsn

/-- Between two reads of the loop other threads make steps. -/
theorem Scanned.advance {i : ℕ} {found : Bool} {minDirty maxClean : ℕ}
    (h : Scanned P words s i found minDirty maxClean) (g : Advances s s')
    (hdrawn : ∀ j < P.logs, s'.drawn j = none)
    (hcsns : ∀ j < P.logs, (s'.log j).csns = (s.log j).csns) :
    Scanned P words s' i found minDirty maxClean where
  drawn := hdrawn
  zero := g.secured h.zero
  stored := g.stored h.stored
  read j hj hji k hk hle := by
    rw [hcsns j hj] at hk
    exact g.completed j (h.read j hj hji k hk hle)
  notFound := h.notFound
  dirty hf := (h.dirty hf).trans_le g.currentCsn
  clean := h.clean.trans_le g.currentCsn

theorem writtenCsns_subset (L : TlsLog) : L.writtenCsns ⊆ L.completedCsns := by
  intro k hk
  rw [completedCsns, completedWrites, List.flatMap_append]
  exact List.mem_append_left _ hk

/-- Without the dirty flag every block of the log is in a completed write. -/
theorem completed_of_clean {L : TlsLog} {word₀ : ℕ} (h : WordInv word₀ L)
    (hlt : L.durableCsn < 2 ^ 63) :
    ∀ k ∈ L.csns, k ∈ L.completedCsns := by
  intro k hk
  obtain ⟨hring, hbuf, hpc⟩ := h.quiet hlt
  refine writtenCsns_subset L ?_
  simpa [csns, ringCsns, hring, hbuf, hpc] using hk

/-- With the dirty flag those up to the value of the word are, but for CSN 0. -/
theorem completed_of_le {L : TlsLog} {k : ℕ}
    (hbase : L.durableCsn % 2 ^ 63 = 0 ∨ L.durableCsn % 2 ^ 63 ∈ L.writtenCsns)
    (hsorted : L.csns.Pairwise (· < ·)) (hk : k ∈ L.csns) (hpos : 0 < k)
    (hle : k ≤ L.durableCsn % 2 ^ 63) : k ∈ L.completedCsns := by
  rcases hbase with h0 | hbase
  · omega
  · refine writtenCsns_subset L ?_
    -- the CSNs behind the polled ones are larger than all of them
    rw [csns, List.append_assoc, List.append_assoc] at hk hsorted
    rcases List.mem_append.mp hk with hk | hk
    · exact hk
    · have hgt := (List.pairwise_append.mp hsorted).2.2 _ hbase _ hk
      omega

/-- One more log is read. -/
theorem Scanned.next (h : LogsInv P words s) {i : ℕ} {found : Bool} {minDirty maxClean : ℕ}
    (k : Scanned P words s i found minDirty maxClean) (hi : i < P.logs) (target : ℕ) :
    ∃ found' minDirty' maxClean',
      readDurableCsn (s.log i).durableCsn target i found minDirty maxClean
        = .scanning target (i + 1) found' minDirty' maxClean' ∧
      Scanned P words s (i + 1) found' minDirty' maxClean' := by
  have hw := h.word i
  have hbase : (s.log i).durableCsn % 2 ^ 63 = 0 ∨
      (s.log i).durableCsn % 2 ^ 63 ∈ (s.log i).writtenCsns := by
    rcases hw.base with ⟨hnil, hword⟩ | hmem
    · exact .inl (hword.trans ((k.stored i hi).resolve_right fun hne => hne hnil))
    · exact .inr hmem
  have hsorted : (s.log i).csns.Pairwise (· < ·) := (List.pairwise_append.mp (h.sorted i)).1
  have hmem : ∀ {c}, c ∈ (s.log i).writtenCsns → c < s.currentCsn := by
    intro c hc
    have hcsn : c ∈ (s.log i).csns := by
      rw [csns, List.append_assoc, List.append_assoc]
      exact List.mem_append_left _ hc
    exact h.lt (List.mem_append_left _ hcsn)
  -- what is known about the logs before `i` stays true for a smaller bound
  have hread : ∀ m, m ≤ minDirty →
      (∀ c ∈ (s.log i).csns, c ≤ m → c ∈ (s.log i).completedCsns) →
      ∀ j < P.logs, j < i + 1 → ∀ c ∈ (s.log j).csns, c ≤ m → c ∈ (s.log j).completedCsns := by
    intro m hm hnew j hj hji c hc hle
    rcases Nat.lt_succ_iff_lt_or_eq.mp hji with hlt | rfl
    · exact k.read j hj hlt c hc (hle.trans hm)
    · exact hnew c hc hle
  have hpos := k.zero.1
  rw [readDurableCsn]
  split_ifs with h0 hd hmax
  · -- dirty
    rw [and_dirtyFlag_ne_zero hw.word] at hd
    rw [and_dirtyFlag_sub_one]
    refine ⟨_, _, _, rfl, k.drawn, k.zero, k.stored, hread _ (min_le_right _ _) ?_,
      (fun h => by cases h),
      fun _ => ?_, k.clean⟩
    · intro c hc hle
      rcases Nat.eq_zero_or_pos c with rfl | hcpos
      · exact k.zero.2 i hi 0 (List.mem_append_left _ hc) le_rfl
      · exact completed_of_le hbase hsorted hc hcpos (hle.trans (min_le_left _ _))
    · refine (min_le_left _ _).trans_lt ?_
      rcases hbase with hb | hb
      · omega
      · exact hmem hb
  · -- clean, and the largest so far
    rw [and_dirtyFlag_ne_zero hw.word, not_le] at hd
    refine ⟨_, _, _, rfl, k.drawn, k.zero, k.stored,
      hread _ le_rfl fun c hc _ => completed_of_clean hw hd c hc,
      k.notFound, k.dirty, ?_⟩
    rw [Nat.mod_eq_of_lt hd] at hbase
    exact hmem (hbase.resolve_left h0)
  · rw [and_dirtyFlag_ne_zero hw.word, not_le] at hd
    exact ⟨_, _, _, rfl, k.drawn, k.zero, k.stored,
      hread _ le_rfl fun c hc _ => completed_of_clean hw hd c hc, k.notFound, k.dirty, k.clean⟩
  · have hd : (s.log i).durableCsn < 2 ^ 63 := by omega
    exact ⟨_, _, _, rfl, k.drawn, k.zero, k.stored,
      hread _ le_rfl fun c hc _ => completed_of_clean hw hd c hc, k.notFound, k.dirty, k.clean⟩

/-- After the last log the result is right. -/
theorem Scanned.secured (h : LogsInv P words s) {i : ℕ} {found : Bool} {minDirty maxClean : ℕ}
    (k : Scanned P words s i found minDirty maxClean) (hi : ¬ i < P.logs) :
    s.Secured P (if found then minDirty else maxClean) := by
  refine ⟨?_, fun j hj c hc hle => ?_⟩
  · split
    · rename_i hf
      exact k.dirty hf
    · exact k.clean
  · have hcsn : c ∈ (s.log j).csns := by
      rw [taken, k.drawn j hj, Option.toList_none, List.append_nil] at hc
      exact hc
    refine k.read j hj (by omega) c hcsn ?_
    cases hf : found with
    | true =>
      rw [hf, if_pos rfl] at hle
      exact hle
    | false =>
      have hmin := k.notFound hf
      have hlt := h.lt hc
      have hlim := h.limit
      omega

/-- What holds for a dequeuing thread. -/
def DequeuerOk (P : PipeConfig) (words : ℕ → UInt64) (s : Pipeline) : Option Dequeuer → Prop
  | some (.scanning _ i found minDirty maxClean) => Scanned P words s i found minDirty maxClean
  | some (.returned _ upto) => s.Secured P upto
  | none => True

theorem DequeuerOk.advance {d : Option Dequeuer} (h : DequeuerOk P words s d) (g : Advances s s')
    (hscan : isScanning d = true → (∀ j < P.logs, s'.drawn j = none) ∧
      ∀ j < P.logs, (s'.log j).csns = (s.log j).csns) : DequeuerOk P words s' d := by
  match d with
  | some (.scanning ..) =>
    obtain ⟨hdrawn, hcsns⟩ := hscan rfl
    exact Scanned.advance h g hdrawn hcsns
  | some (.returned ..) => exact g.secured h
  | none => trivial

theorem DequeuerOk.drawn {d : Option Dequeuer} (h : DequeuerOk P words s d)
    (hd : isScanning d = true) : ∀ j < P.logs, s.drawn j = none := by
  match d with
  | some (.scanning ..) => exact Scanned.drawn h
  | some (.returned ..) => cases hd
  | none => cases hd

/-- A step that leaves the dequeuing threads alone. -/
theorem dequeuerOk_of_same (hd : ∀ r < P.threads, DequeuerOk P words s (s.dequeuer r))
    (g : Advances s s') (hdeq : s'.dequeuer = s.dequeuer) (hdrawn : s'.drawn = s.drawn)
    (hcsns : ∀ j, (s'.log j).csns = (s.log j).csns) :
    ∀ r < P.threads, DequeuerOk P words s' (s'.dequeuer r) := by
  intro r hr
  rw [hdeq]
  refine (hd r hr).advance g fun hscan => ⟨?_, fun j _ => hcsns j⟩
  rw [hdrawn]
  exact (hd r hr).drawn hscan

/-- A step of thread `r`. -/
theorem dequeuerOk_of_set (hd : ∀ r < P.threads, DequeuerOk P words s (s.dequeuer r))
    (g : Advances s s') {r : ℕ} {d : Option Dequeuer}
    (hdeq : s'.dequeuer = Function.update s.dequeuer r d) (hlog : s'.log = s.log)
    (hdrawn : s'.drawn = s.drawn) (hnew : r < P.threads → DequeuerOk P words s' d) :
    ∀ q < P.threads, DequeuerOk P words s' (s'.dequeuer q) := by
  intro q hq
  by_cases hqr : q = r
  · subst hqr
    rw [hdeq, update_self]
    exact hnew hq
  · rw [hdeq, update_of_ne hqr]
    refine (hd q hq).advance g fun hscan => ⟨?_, fun j _ => by rw [hlog]⟩
    rw [hdrawn]
    exact (hd q hq).drawn hscan

/-- A step of a log that gets no CSN. -/
theorem dequeuerOk_of_log (h : LogsInv P words s)
    (hd : ∀ r < P.threads, DequeuerOk P words s (s.dequeuer r))
    (g : Advances s s') {i : ℕ} {a : LogAct} (ha : a.csn? = none)
    (hs : s.stepLog P i a = some s') : ∀ r < P.threads, DequeuerOk P words s' (s'.dequeuer r) := by
  obtain ⟨-, L, hL, rfl⟩ := stepLog_eq_some hs
  refine dequeuerOk_of_same hd g rfl rfl fun j => ?_
  by_cases hj : j = i
  · subst hj
    have hcsns := (logStep_csns (h.buf j) hL).1
    rw [ha, Option.toList_none, List.append_nil] at hcsns
    show (Function.update s.log j L j).csns = _
    rw [update_self, hcsns]
  · show (Function.update s.log i L j).csns = _
    rw [update_of_ne hj]

/-- Every step keeps what the dequeuing threads know. -/
theorem dequeuerOk_step (h : LogsInv P words s)
    (hd : ∀ r < P.threads, DequeuerOk P words s (s.dequeuer r)) {a : PipeAct}
    (hok : s.PipeOk P words a)
    (hs : s.step P a = some s') : ∀ r < P.threads, DequeuerOk P words s' (s'.dequeuer r) := by
  have g := (h.step hok hs).2
  have h' := (h.step hok hs).1
  cases a with
  | draw i =>
    simp only [step] at hs
    split_ifs at hs
    cases hs
    -- nobody is scanning
    intro r hr
    refine (hd r hr).advance g fun hscan => ?_
    rw [hok.2 r hr] at hscan
    cases hscan
  | allocate i payload =>
    simp only [step] at hs
    split at hs
    · rename_i csn hcsn
      obtain ⟨hi, L, hL, rfl⟩ := stepLog_eq_some hs
      -- during a scan no CSN waits for its block
      intro r hr
      refine (hd r hr).advance g fun hscan => ?_
      rw [(hd r hr).drawn hscan i hi] at hcsn
      cases hcsn
    · cases hs
  | flush _ _ | complete _ | proceed _ => exact dequeuerOk_of_log h hd g rfl hs
  | enqueue i csn | extend i =>
    cases hs
    exact dequeuerOk_of_same hd g rfl rfl fun _ => rfl
  | scan r target =>
    simp only [step] at hs
    split_ifs at hs
    cases hs
    refine dequeuerOk_of_set hd g rfl rfl rfl fun _ => ?_
    have hzero := g.secured hok.2.1
    exact ⟨hok.1, hzero, g.stored hok.2.2, fun j _ hj => absurd hj (Nat.not_lt_zero j),
      fun _ => rfl,
      nofun, hzero.1⟩
  | read r =>
    simp only [step] at hs
    split at hs
    · rename_i target i found minDirty maxClean hr
      split_ifs at hs with hi
      cases hs
      refine dequeuerOk_of_set hd g rfl rfl rfl fun hlt => ?_
      have hscan := hd r hlt
      rw [hr] at hscan
      obtain ⟨f, mn, mx, hread, hnext⟩ := Scanned.next h hscan hi target
      rw [hread] at g ⊢
      exact hnext.advance g hnext.drawn fun _ _ => rfl
    · cases hs
  | finish r =>
    simp only [step] at hs
    split at hs
    · rename_i target i found minDirty maxClean hr
      rw [Option.ite_none_left_eq_some] at hs
      obtain ⟨hi, hs⟩ := hs
      cases hs
      refine dequeuerOk_of_set hd g rfl rfl rfl fun hlt => ?_
      have hscan := hd r hlt
      rw [hr] at hscan
      exact g.secured (Scanned.secured h hscan hi)
    · cases hs
  | release r =>
    simp only [step] at hs
    split at hs
    · obtain ⟨q, -, rfl⟩ := Option.map_eq_some_iff.mp hs
      exact dequeuerOk_of_set hd g rfl rfl rfl fun _ => trivial
    · cases hs

/-! ### What a result means -/

/-- The block with CSN `k` is covered by a completed write of some log. -/
def Durable (P : PipeConfig) (s : Pipeline) (k : ℕ) : Prop :=
  ∃ i < P.logs, ∃ w ∈ (s.log i).completedWrites, ∃ b ∈ w.blocks,
    b.csn = k ∧ b.bufOffset + b.size ≤ w.size

/-- CSN `k` has been taken, but it has no block yet or its block is in no completed
write. -/
def Unwritten (P : PipeConfig) (s : Pipeline) (k : ℕ) : Prop :=
  ∃ i < P.logs, s.drawn i = some k ∨ (s.log i).pc.csn? = some k ∨
    ∃ b ∈ (s.log i).allocated, b.csn = k ∧ ∀ w ∈ (s.log i).completedWrites, b ∉ w.blocks

/-- The CSNs of a log that are in no completed write. -/
def pendingCsns (L : TlsLog) : List ℕ :=
  (if L.completed then [] else L.ringCsns) ++ L.buffered.map Block.csn ++ L.pc.csn?.toList

theorem csns_eq_completed_append (L : TlsLog) :
    L.csns = L.completedCsns ++ pendingCsns L := by
  cases hc : L.completed <;>
    simp [csns, completedCsns, completedWrites, pendingCsns, writtenCsns, ringCsns, hc]

theorem completedWrites_subset (L : TlsLog) : L.completedWrites ⊆ L.submitted := by
  intro w hw
  rcases List.mem_append.mp hw with hw | hw
  · exact List.mem_append_left _ hw
  · split at hw
    · exact List.mem_append_right _ hw
    · cases hw

/-- A block that is in no completed write is still on its way. -/
theorem mem_pendingCsns {L : TlsLog} (hb : BufInv L) {b : Block} (hin : b ∈ L.allocated)
    (hnot : ∀ w ∈ L.completedWrites, b ∉ w.blocks) : b.csn ∈ pendingCsns L := by
  rcases hb.kept b hin with hbuf | ⟨w, hw, hbw⟩
  · simp only [pendingCsns, List.mem_append]
    exact .inl (.inr (List.mem_map_of_mem hbuf))
  · have hring : w ∈ L.ring.toList := by
      refine (List.mem_append.mp hw).resolve_left fun hwritten => ?_
      exact hnot w (List.mem_append_left _ hwritten) hbw
    have hc : L.completed = false := by
      refine Bool.eq_false_iff.mpr fun hc => hnot w (List.mem_append_right _ ?_) hbw
      rwa [if_pos hc]
    simp only [pendingCsns, hc, List.mem_append]
    exact .inl (.inl (List.mem_flatMap.mpr ⟨w, hring, List.mem_map_of_mem hbw⟩))

/-- Up to a secured CSN every block is durable and none is on its way. -/
theorem Secured.durable (h : LogsInv P words s) {c k : ℕ} (hc : s.Secured P c) (hle : k ≤ c) :
    s.Durable P k ∧ ¬ s.Unwritten P k := by
  constructor
  · obtain ⟨i, hi, hk⟩ := h.all k (hle.trans_lt hc.1)
    obtain ⟨w, hw, hkw⟩ := List.mem_flatMap.mp (hc.2 i hi k hk hle)
    obtain ⟨b, hb, rfl⟩ := List.mem_map.mp hkw
    exact ⟨i, hi, w, hw, b, hb, rfl, (h.buf i).covered w (completedWrites_subset _ hw) b hb⟩
  · rintro ⟨i, hi, hcase⟩
    have hlater : k ∈ pendingCsns (s.log i) ++ (s.drawn i).toList := by
      rw [List.mem_append]
      rcases hcase with hd | hpc | ⟨b, hb, rfl, hnot⟩
      · exact .inr (by rw [hd]; exact List.mem_singleton_self _)
      · refine .inl (List.mem_append_right _ ?_)
        rw [hpc]
        exact List.mem_singleton_self _
      · exact .inl (mem_pendingCsns (h.buf i) hb hnot)
    have htaken : s.taken i = (s.log i).completedCsns ++
        (pendingCsns (s.log i) ++ (s.drawn i).toList) := by
      rw [taken, csns_eq_completed_append, List.append_assoc]
    have hk := hc.2 i hi k (htaken ▸ List.mem_append_right _ hlater) hle
    -- the CSN would be in its list twice
    have hsorted := h.sorted i
    rw [htaken, List.pairwise_append] at hsorted
    exact absurd (hsorted.2.2 k hk k hlater) (lt_irrefl k)

/-- The CSNs that an action releases from a commit queue. -/
def releasedBy (s : Pipeline) : PipeAct → List ℕ
  | .release r =>
    match s.dequeuer r with
    | some (.returned target upto) => (s.queue target).released upto
    | _ => []
  | _ => []

end Pipeline

open Pipeline

/-- **Durability of pipelined commit.**  In every run that meets the conditions, whatever
the published words were at first: when `get_global_durable_csn` has returned `c`, every CSN
up to `c` has its block in a completed write; and when a queue entry with CSN `k` is
released, the same holds for every CSN up to `k`. -/
theorem durable_csn_secured {P : PipeConfig} {length : ℕ} {words : ℕ → UInt64}
    {acts : List PipeAct} {s : Pipeline}
    (hok : Along (Pipeline.step P) (fun s => s.PipeOk P words) (Pipeline.init length words) acts)
    (hr : run (Pipeline.step P) (Pipeline.init length words) acts = some s) :
    ∀ r < P.threads,
      (∀ target c, s.dequeuer r = some (.returned target c) →
        ∀ k ≤ c, s.Durable P k ∧ ¬ s.Unwritten P k) ∧
      ∀ k ∈ s.releasedBy (.release r), ∀ j ≤ k, s.Durable P j ∧ ¬ s.Unwritten P j := by
  have hinv : LogsInv P words s ∧ ∀ r < P.threads, DequeuerOk P words s (s.dequeuer r) := by
    refine run_invariant_along
      (I := fun s => LogsInv P words s ∧ ∀ r < P.threads, DequeuerOk P words s (s.dequeuer r))
      ?_ hok hr
      ⟨logsInv_init P length words, fun _ _ => trivial⟩
    rintro s a s' hok hs ⟨h, hd⟩
    exact ⟨(h.step hok hs).1, dequeuerOk_step h hd hok hs⟩
  obtain ⟨h, hd⟩ := hinv
  intro r hr
  have hsecured : ∀ target c, s.dequeuer r = some (.returned target c) → s.Secured P c := by
    intro target c hret
    have := hd r hr
    rwa [hret] at this
  refine ⟨fun target c hret k hk => (hsecured target c hret).durable h hk, fun k hk j hj => ?_⟩
  rw [releasedBy] at hk
  split at hk
  · rename_i target upto hret
    have hle := CommitQueue.le_of_mem_released hk
    exact (hsecured target upto hret).durable h (hj.trans hle)
  · cases hk

/-- Two logs and one dequeuing thread. -/
def twoLogs : PipeConfig where
  logs := 2
  threads := 1
  log := smallLog

/-- The owner of log `i` commits a transaction with CSN `csn`, and its block is
flushed and polled. -/
def commitDurably (i csn : ℕ) : List PipeAct :=
  [.draw i, .allocate i 100, .proceed i, .enqueue i csn, .flush i true, .proceed i, .complete i,
    .proceed i]

/-- Thread 0 computes the global durable CSN for log 1. -/
def scanActs : List PipeAct := [.scan 0 1, .read 0, .read 0, .finish 0]

/-- The words hold anything until both logs have polled a write. -/
theorem durable_csn_secured_two :
    ∃ s, run (Pipeline.step twoLogs) (Pipeline.init 8 fun _ => 7)
        (commitDurably 0 0 ++ commitDurably 1 1 ++ scanActs) = some s ∧
      s.releasedBy (.release 0) = [1] ∧
      ∀ k ∈ s.releasedBy (.release 0), ∀ j ≤ k, s.Durable twoLogs j ∧ ¬ s.Unwritten twoLogs j := by
  have hok : Along (Pipeline.step twoLogs) (fun s => s.PipeOk twoLogs fun _ => 7)
      (Pipeline.init 8 fun _ => 7) (commitDurably 0 0 ++ commitDurably 1 1 ++ scanActs) := by decide
  exact ⟨_, rfl, by decide, (durable_csn_secured hok rfl 0 (by decide)).2⟩

/-- Log 0 has CSN 1 under way and CSN 2 in its buffer when it is flushed: polling
CSN 1 drops the dirty flag.  Log 1 then makes CSN 3 durable, and CSN 3 is released
while the block of CSN 2 has not reached the disk. -/
theorem released_too_early :
    ∃ s, run (Pipeline.step twoLogs) (Pipeline.init 8 fun _ => 0)
        (commitDurably 1 0 ++
          [.draw 0, .allocate 0 100, .proceed 0, .flush 0 false, .proceed 0,
            .draw 0, .allocate 0 100, .proceed 0, .complete 0, .flush 0 false, .proceed 0,
            .proceed 0] ++
          commitDurably 1 3 ++ scanActs) = some s ∧
      s.dequeuer 0 = some (.returned 1 3) ∧ s.releasedBy (.release 0) = [0, 3] ∧
      s.Unwritten twoLogs 2 := by
  refine ⟨_, rfl, by decide, by decide, 0, by decide, .inr (.inr ?_)⟩
  exact ⟨⟨4096, 0, 2, 0, 2148⟩, by decide, rfl, by decide⟩

end PreemptDB
