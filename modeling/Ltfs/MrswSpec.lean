import Ltfs.Lib.Census
import Ltfs.MrswInvariant

namespace Ltfs.MrswSpec

open MrswLock MrswInvariant Lib.Census

variable {ι : Type} [Fintype ι] [DecidableEq ι] {s s' : State ι} {i : ι}

/-- How many threads are at a statement with a property. -/
def number (s : State ι) (P : Pc → Bool) : Nat :=
  total (fun p => (P p).toNat) s.pc

omit [DecidableEq ι] in
theorem census_number (s : State ι) : Census (Fintype.card ι) (number s) := by
  constructor
  · simp only [number, ← total_add]
    refine total_le_card (fun p => ?_)
    cases p <;> simp [reads, enters, Bool.toNat_le]
  · refine total_mono (fun p => ?_)
    cases p <;> simp [locks, enters]
  · refine total_mono (fun p => ?_)
    cases p <;> simp [unlocks, leaves]
  · simp only [number, ← total_add]
    refine total_mono (fun p => ?_)
    cases p <;> simp [enters, leaves, counts, holdsCount]
  · simp only [number, ← total_add]
    refine total_mono (fun p => ?_)
    cases p <;> simp [flagged, sets, writes]

theorem moves_update (s : State ι) (m : Mrsw) (i : ι) (p : Pc) :
    Moves (number s) (number ⟨m, Function.update s.pc i p⟩) (s.pc i) p :=
  ⟨fun P => le_total (fun p => (P p).toNat) s.pc i, fun P => total_update (fun p => (P p).toNat) s.pc i p⟩

omit [DecidableEq ι] in
theorem inv_initial : Inv (Fintype.card ι) (initial : State ι).mrsw (number (initial : State ι)) := by
  have hzero : ∀ P : Pc → Bool, P .idle = false → number (initial : State ι) P = 0 := by
    intro P hP
    refine total_eq_zero (fun i => ?_)
    simp [initial, hP]
  refine ⟨(hzero _ rfl).symm, (hzero _ rfl).symm, (hzero _ rfl).symm, Or.inl ?_⟩
  show Counted initMrsw _
  constructor <;> simp [hzero reads rfl, hzero enters rfl, hzero leaves rfl, hzero writes rfl, hzero locks rfl,
    hzero unlocks rfl, initMrsw]

theorem inv_step {a : ι × Act} (hinv : Inv (Fintype.card ι) s.mrsw (number s)) (h : step s a = some s') :
    Inv (Fintype.card ι) s'.mrsw (number s') := by
  obtain ⟨i, call | _⟩ := a
  · simp only [step, Option.map_eq_some_iff] at h
    obtain ⟨p, hp, rfl⟩ := h
    exact hinv.start (moves_update s _ i p) hp
  · simp only [step, Option.map_eq_some_iff] at h
    obtain ⟨⟨m, p⟩, hp, rfl⟩ := h
    exact hinv.advance (census_number s) (census_number _) (moves_update s m i p) hp

theorem inv_run {as : List (ι × Act)} (hinv : Inv (Fintype.card ι) s.mrsw (number s)) (h : run s as = some s') :
    Inv (Fintype.card ι) s'.mrsw (number s') := by
  induction as generalizing s with
  | nil =>
    obtain rfl : s = s' := Option.some.inj h
    exact hinv
  | cons a as ih =>
    simp only [run, List.foldlM_cons, Option.bind_eq_bind, Option.bind_eq_some_iff] at h
    obtain ⟨s₁, h₁, h₂⟩ := h
    exact ih (inv_step hinv h₁) h₂

/-- What the lock promises. A writer and a reader are meant in the wide sense: from the moment `reading_mutex` is
theirs until they give it up, which includes the time between the calls. -/
structure Safe (s : State ι) : Prop where
  writers : ∀ i j, writes (s.pc i) = true → writes (s.pc j) = true → i = j
  readers : ∀ i j, writes (s.pc i) = true → reads (s.pc j) = false
  writer : s.mrsw.writer = true ↔ ∃ i, flagged (s.pc i) = true
  release : ∀ i mode, s.pc i = .releaseTest mode → (s.mrsw.writer = true ↔ mode = .write)
  count : Fintype.card ι < 2 ^ 32 → s.mrsw.readCount = number s reads + number s enters
  settled : Fintype.card ι < 2 ^ 32 → s.mrsw.readCountMutex = false → s.mrsw.readCount = number s reads

omit [DecidableEq ι] in
theorem safe_of_inv (hinv : Inv (Fintype.card ι) s.mrsw (number s)) : Safe s := by
  have hcen := census_number s
  have hmem : ∀ (i : ι) (P : Pc → Bool), (P (s.pc i)).toNat ≤ number s P :=
    fun i P => le_total (fun p => (P p).toNat) s.pc i
  have hcounted : Fintype.card ι < 2 ^ 32 → Counted s.mrsw (number s) := by
    intro hcard
    refine hinv.reading.resolve_right (fun hw => ?_)
    have := hw.card
    omega
  constructor
  · intro i j hi hj
    refine eq_of_total_le_one hinv.writes_le_one.1 (i := i) (j := j) ?_ ?_
    · simp [hi]
    · simp [hj]
  · intro i j hi
    by_contra hj
    have hwrites := hmem i writes
    have hreads := hmem j reads
    have hnone := hinv.writes_le_one.2
    simp only [hi, Bool.not_eq_false] at hj hwrites
    simp only [hj, Bool.toNat_true] at hreads hwrites
    omega
  · have hwriter := hinv.writer
    constructor
    · intro hset
      rw [hset, Bool.toNat_true] at hwriter
      obtain ⟨i, hi⟩ := exists_of_total_pos (g := fun p => (flagged p).toNat) (f := s.pc) (by
        show 0 < number s flagged
        omega)
      refine ⟨i, ?_⟩
      by_contra hno
      simp only [Bool.not_eq_true] at hno
      simp only [hno, Bool.toNat_false, Nat.lt_irrefl] at hi
    · rintro ⟨i, hi⟩
      exact held_of_mem hwriter (hmem i flagged) hi
  · intro i mode hi
    exact hinv.tellsMode hcen (hmem i) mode hi
  · intro hcard
    exact (hcounted hcard).count
  · intro hcard hfree
    have hcount := (hcounted hcard).count
    have hcounting := hinv.counting
    have hat := hcen.counting
    rw [hfree, Bool.toNat_false] at hcounting
    omega

/-- Whatever the number of threads and the order of their steps, the lock keeps its promise. -/
theorem run_safe {as : List (ι × Act)} (h : run (initial : State ι) as = some s) : Safe s :=
  safe_of_inv (inv_run inv_initial h)

/-- A writer makes way for itself and a second thread to read. -/
def twoReaders : List (Fin 2 × Act) :=
  (0, .call .acquirewrite) :: List.replicate 4 (0, .go) ++
    (0, .call .writetoread) :: List.replicate 9 (0, .go) ++
    (1, .call .acquireread) :: List.replicate 7 (1, .go)

theorem run_safe_twoReaders :
    ∃ s, run initial twoReaders = some s ∧ s.pc 0 = .reading ∧ s.pc 1 = .reading ∧ s.mrsw.readCount = 2 ∧ Safe s := by
  have hrun : run initial twoReaders = some _ := rfl
  exact ⟨_, hrun, rfl, rfl, rfl, run_safe hrun⟩

/-- The statements of one thread while no other thread moves. -/
def walk : Nat → Mrsw → Pc → Option (Mrsw × Pc)
  | 0, m, p => some (m, p)
  | k + 1, m, p => (advance m p).bind (fun r => walk k r.1 r.2)

omit [Fintype ι] in
theorem run_replicate (k : Nat) (s : State ι) (i : ι) :
    run s (List.replicate k (i, .go)) =
      (walk k s.mrsw (s.pc i)).map (fun r => ⟨r.1, Function.update s.pc i r.2⟩) := by
  induction k generalizing s with
  | zero => simp [run, walk]
  | succ k ih =>
    rw [List.replicate_succ, run, List.foldlM_cons]
    cases hgo : advance s.mrsw (s.pc i) with
    | none => simp [step, walk, hgo]
    | some r =>
      have hstep : step s (i, .go) = some ⟨r.1, Function.update s.pc i r.2⟩ := by simp [step, hgo]
      simp only [hstep, Option.bind_eq_bind, Option.bind_some, walk, hgo]
      rw [← run, ih]
      simp

/-- The first `k` of the threads read, the others have not called anything. -/
def readers (c k : Nat) : State (Fin c) :=
  ⟨⟨false, decide (0 < k), false, k % 2 ^ 32, false, false⟩, fun i => if i.val < k then .reading else .idle⟩

theorem readers_succ {c k : Nat} (hk : k < c) (hc : c ≤ 2 ^ 32) :
    ∃ as, run (readers c k) as = some (readers c (k + 1)) := by
  have hpc : Function.update (readers c k).pc ⟨k, hk⟩ .reading = (readers c (k + 1)).pc := by
    funext i
    by_cases hi : i = ⟨k, hk⟩
    · subst hi
      simp [readers]
    · have hne : i.val ≠ k := fun h => hi (Fin.ext h)
      rw [Function.update_of_ne hi]
      simp only [readers, Nat.lt_succ_iff, Nat.le_iff_lt_or_eq, hne, or_false]
  have hmod : k % 2 ^ 32 = k := Nat.mod_eq_of_lt (by omega)
  have hwalk : ∃ j, walk j (readers c k).mrsw .gateLock = some ((readers c (k + 1)).mrsw, .reading) := by
    by_cases hzero : k = 0
    · subst hzero
      exact ⟨8, rfl⟩
    · have htest : (k + 1) % 2 ^ 32 ≠ 1 := by omega
      have hpos : 0 < k := by omega
      refine ⟨7, ?_⟩
      simp only [walk, advance, readers, hmod, hpos, htest, decide_true, Bool.false_eq_true, if_false, Option.bind_some,
        Nat.succ_pos]
  obtain ⟨j, hj⟩ := hwalk
  refine ⟨(⟨k, hk⟩, .call .acquireread) :: List.replicate j (⟨k, hk⟩, .go), ?_⟩
  rw [run, List.foldlM_cons]
  have hcall : step (readers c k) (⟨k, hk⟩, .call .acquireread) =
      some ⟨(readers c k).mrsw, Function.update (readers c k).pc ⟨k, hk⟩ .gateLock⟩ := by
    simp [step, readers, start]
  rw [hcall, Option.bind_eq_bind, Option.bind_some, ← run, run_replicate]
  simp only [Function.update_self, Function.update_idem, hj, Option.map_some, hpc]

theorem exists_run_readers {c k : Nat} (hk : k ≤ c) (hc : c ≤ 2 ^ 32) :
    ∃ as, run (initial : State (Fin c)) as = some (readers c k) := by
  induction k with
  | zero =>
    refine ⟨[], ?_⟩
    simp [run, initial, initMrsw, readers]
  | succ k ih =>
    obtain ⟨as, has⟩ := ih (by omega)
    obtain ⟨bs, hbs⟩ := readers_succ hk hc
    refine ⟨as ++ bs, ?_⟩
    rw [run, List.foldlM_append, ← run, has]
    exact hbs

/-- With as many threads as the counter has values, all of them can be readers, and the count says that none is. -/
theorem readCount_wraps :
    ∃ as, ∃ s : State (Fin (2 ^ 32)), run initial as = some s ∧ (∀ i, s.pc i = .reading) ∧
      s.mrsw.readCountMutex = false ∧ s.mrsw.readCount = 0 ∧ number s reads = 2 ^ 32 := by
  obtain ⟨as, has⟩ := exists_run_readers (le_refl (2 ^ 32)) (le_refl (2 ^ 32))
  have hall : ∀ i, (readers (2 ^ 32) (2 ^ 32)).pc i = .reading := fun i => if_pos i.isLt
  refine ⟨as, _, has, hall, rfl, Nat.mod_self _, ?_⟩
  have hcard : number (readers (2 ^ 32) (2 ^ 32)) reads = Fintype.card (Fin (2 ^ 32)) := by
    refine total_eq_card (fun i => ?_)
    rw [hall i]
    rfl
  rw [hcard, Fintype.card_fin]

end Ltfs.MrswSpec
