import Ltfs.MrswLock

namespace Ltfs.MrswInvariant

open MrswLock

/-- The thread has `write_exclusive_mutex` locked. -/
def holdsExclusive : Pc → Bool
  | .gateLong | .gateUnlock | .readingLock _ | .writerSet _ | .longSet _ | .writing => true
  | .tryReading | .tryUndo | .tryWriter => true
  | .releaseTest mode => mode = .write
  | .writerClear | .longClear | .readingUnlock | .exclusiveUnlock => true
  | .countLock down | .countUp down | .countTest down | .countRead down | .countUnlock down => down
  | .downWriter | .downLong | .downReading | .downExclusive => true
  | _ => false

/-- The thread has `read_count_mutex` locked. -/
def holdsCount : Pc → Bool
  | .countUp _ | .countTest _ | .countRead _ | .countUnlock _ => true
  | .leaveDown | .leaveTest | .leaveRead | .leaveUnlock => true
  | _ => false

/-- The thread holds the lock for writing: it has locked `reading_mutex` and has not unlocked it. -/
def writes : Pc → Bool
  | .writerSet _ | .longSet _ | .tryWriter | .writing => true
  | .releaseTest mode => mode = .write
  | .writerClear | .longClear | .readingUnlock | .downWriter | .downLong | .downReading => true
  | _ => false

/-- The thread is the one the writer flag speaks of. -/
def flagged : Pc → Bool
  | .longSet _ | .writing | .writerClear | .downWriter => true
  | .releaseTest mode => mode = .write
  | _ => false

/-- The thread holds the lock for reading: it has passed `reading_mutex` and has not left the count. -/
def reads : Pc → Bool
  | .countUnlock _ | .downExclusive | .reading | .leaveLock | .leaveDown => true
  | .releaseTest mode => mode = .read
  | _ => false

/-- The thread is counted and may still have to lock `reading_mutex` for the readers. -/
def enters : Pc → Bool
  | .countTest _ | .countRead _ => true
  | _ => false

/-- The thread is no longer counted and may still have to unlock `reading_mutex` for the readers. -/
def leaves : Pc → Bool
  | .leaveTest | .leaveRead => true
  | _ => false

/-- The thread changes the count next. -/
def counts : Pc → Bool
  | .countUp _ | .leaveDown => true
  | _ => false

def locks : Pc → Bool
  | .countRead _ => true
  | _ => false

def unlocks : Pc → Bool
  | .leaveRead => true
  | _ => false

def sets : Pc → Bool
  | .writerSet _ | .tryWriter => true
  | _ => false

variable {m m' : Mrsw} {p p' : Pc}

/-- What the statements say about the numbers `n` of threads at them, of which there are `c` in all. -/
structure Census (c : Nat) (n : (Pc → Bool) → Nat) : Prop where
  card : n reads + n enters ≤ c
  locks : n locks ≤ n enters
  unlocks : n unlocks ≤ n leaves
  counting : n enters + n leaves + n counts ≤ n holdsCount
  writing : n flagged + n sets ≤ n writes

/-- A thread goes from the statement `p` to `p'`. -/
structure Moves (n n' : (Pc → Bool) → Nat) (p p' : Pc) : Prop where
  mem : ∀ P, (P p).toNat ≤ n P
  update : ∀ P, n' P + (P p).toNat = n P + (P p').toNat

/-- `read_count` has never wrapped. It is the number of readers, and `reading_mutex` is locked by a writer or for
the readers: from the first that locks it until the last that unlocks it. -/
structure Counted (m : Mrsw) (n : (Pc → Bool) → Nat) : Prop where
  count : m.readCount = n reads + n enters
  bound : m.readCount < 2 ^ 32
  taken : 0 < n reads + n leaves → m.readingMutex.toNat = n writes + 1
  free : n reads + n leaves = 0 → m.readingMutex.toNat = n writes
  first : 0 < n locks → m.readCount = 1
  last : 0 < n unlocks → m.readCount = 0

/-- `read_count` has wrapped, which takes as many threads as the counter has values. From then on `reading_mutex`
is never unlocked. -/
structure Wrapped (c : Nat) (m : Mrsw) (n : (Pc → Bool) → Nat) : Prop where
  card : 2 ^ 32 ≤ c
  noWriter : n writes = 0
  noLeaver : n leaves = 0
  mutex : m.readingMutex = true
  count : m.readCount = 0 ∨ m.readCount = 1 ∧ 0 < n enters

structure Inv (c : Nat) (m : Mrsw) (n : (Pc → Bool) → Nat) : Prop where
  exclusive : m.writeExclusiveMutex.toNat = n holdsExclusive
  counting : m.readCountMutex.toNat = n holdsCount
  writer : m.writer.toNat = n flagged
  reading : Counted m n ∨ Wrapped c m n

/-- `release_mrsw` reads the mode the thread has the lock in off the writer flag. -/
def TellsMode (m : Mrsw) (p : Pc) : Prop :=
  ∀ mode, p = .releaseTest mode → (m.writer = true ↔ mode = .write)

theorem advance_exclusive (h : advance m p = some (m', p')) (htells : TellsMode m p)
    (hp : holdsExclusive p = true → m.writeExclusiveMutex = true) :
    m'.writeExclusiveMutex.toNat + (holdsExclusive p).toNat =
      m.writeExclusiveMutex.toNat + (holdsExclusive p').toNat := by
  revert h
  fun_cases advance m p <;> rintro ⟨⟩ <;> simp_all [holdsExclusive, TellsMode]

theorem advance_counting (h : advance m p = some (m', p')) (hp : holdsCount p = true → m.readCountMutex = true) :
    m'.readCountMutex.toNat + (holdsCount p).toNat = m.readCountMutex.toNat + (holdsCount p').toNat := by
  revert h
  fun_cases advance m p <;> rintro ⟨⟩ <;> simp_all [holdsCount]

theorem advance_writer (h : advance m p = some (m', p')) (htells : TellsMode m p)
    (hp : flagged p = true → m.writer = true) (hset : sets p = true → m.writer = false) :
    m'.writer.toNat + (flagged p).toNat = m.writer.toNat + (flagged p').toNat := by
  revert h
  fun_cases advance m p <;> rintro ⟨⟩ <;> simp_all [flagged, sets, TellsMode]

/-- The statements after which the count, `reading_mutex` or the threads that depend on them are others. -/
def near : Pc → Bool
  | .countUp _ | .countTest _ | .countRead _ | .leaveDown | .leaveTest | .leaveRead => true
  | .readingLock _ | .tryReading | .readingUnlock | .downReading => true
  | _ => false

/-- What `Counted` and `Wrapped` say is about the threads with these properties. -/
def aboutReads : List (Pc → Bool) :=
  [reads, enters, leaves, writes, locks, unlocks]

theorem ne_write_iff (mode : Mode) : mode ≠ .write ↔ mode = .read := by
  cases mode <;> simp

theorem advance_far (h : advance m p = some (m', p')) (htells : TellsMode m p) (hfar : near p = false) :
    m'.readCount = m.readCount ∧ m'.readingMutex = m.readingMutex ∧ ∀ P ∈ aboutReads, P p' = P p := by
  revert h
  fun_cases advance m p <;> rintro ⟨⟩ <;>
    simp_all [near, aboutReads, reads, enters, leaves, writes, locks, unlocks, TellsMode, ← ne_write_iff]

section Step

variable {c : Nat} {n n' : (Pc → Bool) → Nat}

theorem Moves.eq_of_far (hmove : Moves n n' p p') {P : Pc → Bool} (hP : P p' = P p) : n' P = n P := by
  have hupdate := hmove.update P
  rw [hP] at hupdate
  omega

theorem Counted.congr (hc : Counted m n) (hcount : m'.readCount = m.readCount)
    (hmutex : m'.readingMutex = m.readingMutex) (hn : ∀ P ∈ aboutReads, n' P = n P) : Counted m' n' := by
  simp only [aboutReads, List.forall_mem_cons] at hn
  obtain ⟨hr, he, hl, hw, hlo, hun, -⟩ := hn
  constructor
  · rw [hcount, hr, he, hc.count]
  · rw [hcount]
    exact hc.bound
  · rw [hmutex, hr, hl, hw]
    exact hc.taken
  · rw [hmutex, hr, hl, hw]
    exact hc.free
  · rw [hcount, hlo]
    exact hc.first
  · rw [hcount, hun]
    exact hc.last

theorem Wrapped.congr (hw : Wrapped c m n) (hcount : m'.readCount = m.readCount)
    (hmutex : m'.readingMutex = m.readingMutex) (hn : ∀ P ∈ aboutReads, n' P = n P) : Wrapped c m' n' := by
  simp only [aboutReads, List.forall_mem_cons] at hn
  obtain ⟨-, he, hl, hwr, -⟩ := hn
  refine ⟨hw.card, hwr.trans hw.noWriter, hl.trans hw.noLeaver, hmutex.trans hw.mutex, ?_⟩
  rw [hcount, he]
  exact hw.count

/-- The statements near the count keep it right as long as there is room for one more reader. -/
theorem Counted.near (hc : Counted m n) (hcen : Census c n) (hcen' : Census c n') (hmove : Moves n n' p p')
    (hone : n holdsCount ≤ 1) (h : advance m p = some (m', p')) (hnear : near p = true)
    (hroom : ∀ down, p = .countUp down → m.readCount + 1 < 2 ^ 32) : Counted m' n' := by
  obtain ⟨hcount, hbound, htaken, hfree, hlocks, hunlocks⟩ := hc
  obtain ⟨-, hlo, hun, hcounting, -⟩ := hcen
  obtain ⟨-, hlo', hun', -, -⟩ := hcen'
  have hrm := Bool.toNat_le m.readingMutex
  have hm := hmove.mem
  have hu : ∀ P ∈ aboutReads, n' P + (P p).toNat = n P + (P p').toNat := fun P _ => hmove.update P
  simp only [aboutReads, List.forall_mem_cons] at hu
  obtain ⟨hr, he, hl, hw, hk, hf, -⟩ := hu
  have gr := hm reads
  have ge := hm enters
  have gl := hm leaves
  have gw := hm writes
  have gk := hm locks
  have gf := hm unlocks
  have gc := hm counts
  clear hm hmove
  revert h
  fun_cases advance m p <;> rintro ⟨⟩ <;> simp only [MrswInvariant.near, reduceCtorEq] at hnear
  all_goals
    simp only [reads, enters, leaves, writes, locks, unlocks, counts, Bool.toNat_true,
      Bool.toNat_false] at hr he hl hw hk hf gr ge gl gw gk gf gc
    constructor <;> grind

/-- The reader for which the counter has no value left wraps it; the readers have `reading_mutex` then. -/
theorem Counted.wraps {down : Bool} (hc : Counted m n) (hcen : Census c n) (hcen' : Census c n')
    (hmove : Moves n n' (.countUp down) p') (hone : n holdsCount ≤ 1)
    (h : advance m (.countUp down) = some (m', p')) (hfull : 2 ^ 32 ≤ m.readCount + 1) : Wrapped c m' n' := by
  obtain ⟨hcount, hbound, htaken, -, -, -⟩ := hc
  obtain ⟨-, -, -, hcounting, -⟩ := hcen
  have hrm := Bool.toNat_le m.readingMutex
  have hcounts := hmove.mem counts
  have hr := hmove.update reads
  have he := hmove.update enters
  have hl := hmove.update leaves
  have hw := hmove.update writes
  simp only [advance, Option.some.injEq, Prod.mk.injEq] at h
  obtain ⟨rfl, rfl⟩ := h
  simp only [reads, enters, leaves, writes, counts, Bool.toNat_true, Bool.toNat_false] at hr he hl hw hcounts
  -- the thread has `read_count_mutex`, so all that are counted are inside
  have htaken' := htaken (by omega)
  refine ⟨?_, by omega, by omega, ?_, Or.inl ?_⟩
  · have := hcen'.card
    omega
  · show m.readingMutex = true
    rw [← Bool.toNat_eq_one]
    omega
  · show (m.readCount + 1) % 2 ^ 32 = 0
    have hwrap : m.readCount + 1 = 2 ^ 32 := by omega
    rw [hwrap, Nat.mod_self]

theorem Wrapped.near (hw : Wrapped c m n) (hcen : Census c n) (hmove : Moves n n' p p') (hone : n holdsCount ≤ 1)
    (h : advance m p = some (m', p')) (hnear : near p = true) : Wrapped c m' n' := by
  obtain ⟨hcard, hwrites, hleaves, hmutex, hcount⟩ := hw
  obtain ⟨-, -, -, hcounting, -⟩ := hcen
  have he := hmove.update enters
  have hl := hmove.update leaves
  have hw := hmove.update writes
  have ge := hmove.mem enters
  have gl := hmove.mem leaves
  have gw := hmove.mem writes
  have gc := hmove.mem counts
  clear hmove
  revert h
  fun_cases advance m p <;> rintro ⟨⟩ <;> simp only [MrswInvariant.near, reduceCtorEq] at hnear
  all_goals
    simp only [enters, leaves, writes, counts, Bool.toNat_true, Bool.toNat_false] at he hl hw ge gl gw gc
    constructor <;> grind

theorem Inv.one_counting (hinv : Inv c m n) : n holdsCount ≤ 1 := by
  rw [← hinv.counting]
  exact Bool.toNat_le _

theorem Inv.writes_le_one (hinv : Inv c m n) : n writes ≤ 1 ∧ (0 < n reads → n writes = 0) := by
  have hrm := Bool.toNat_le m.readingMutex
  rcases hinv.reading with hc | hw
  · have htaken := hc.taken
    have hfree := hc.free
    omega
  · have := hw.noWriter
    omega

theorem Inv.tellsMode (hinv : Inv c m n) (hcen : Census c n) (hmem : ∀ P, (P p).toNat ≤ n P) : TellsMode m p := by
  rintro mode rfl
  have hwriter := hinv.writer
  have hwrites := hinv.writes_le_one
  have hwriting := hcen.writing
  cases mode with
  | read =>
    have hreads : 1 ≤ n reads := hmem reads
    have hzero : m.writer.toNat = 0 := by omega
    simpa using hzero
  | write =>
    have hflagged : 1 ≤ n flagged := hmem flagged
    have hle := Bool.toNat_le m.writer
    have hwone : m.writer.toNat = 1 := by omega
    simpa using hwone

theorem held_of_mem {b : Bool} {P : Pc → Bool} (hb : b.toNat = n P) (hmem : (P p).toNat ≤ n P) (hp : P p = true) :
    b = true := by
  have hle := Bool.toNat_le b
  rw [hp, Bool.toNat_true] at hmem
  rw [← Bool.toNat_eq_one]
  omega

theorem Inv.advance_reading (hinv : Inv c m n) (hcen : Census c n) (hcen' : Census c n') (hmove : Moves n n' p p')
    (h : advance m p = some (m', p')) : Counted m' n' ∨ Wrapped c m' n' := by
  by_cases hnear : near p = true
  · rcases hinv.reading with hc | hw
    · by_cases hfull : (∃ down, p = .countUp down) ∧ 2 ^ 32 ≤ m.readCount + 1
      · obtain ⟨⟨down, rfl⟩, hfull⟩ := hfull
        exact Or.inr (hc.wraps hcen hcen' hmove hinv.one_counting h hfull)
      · refine Or.inl (hc.near hcen hcen' hmove hinv.one_counting h hnear (fun down hp => ?_))
        by_contra hno
        exact hfull ⟨⟨down, hp⟩, by omega⟩
    · exact Or.inr (hw.near hcen hmove hinv.one_counting h hnear)
  · have htells := hinv.tellsMode hcen hmove.mem
    obtain ⟨hcount, hmutex, hsame⟩ := advance_far h htells (by simpa using hnear)
    have hn : ∀ P ∈ aboutReads, n' P = n P := fun P hP => hmove.eq_of_far (hsame P hP)
    exact hinv.reading.imp (fun hc => hc.congr hcount hmutex hn) (fun hw => hw.congr hcount hmutex hn)

/-- The step lemma: a statement of any thread keeps the invariant. -/
theorem Inv.advance (hinv : Inv c m n) (hcen : Census c n) (hcen' : Census c n') (hmove : Moves n n' p p')
    (h : advance m p = some (m', p')) : Inv c m' n' := by
  have htells := hinv.tellsMode hcen hmove.mem
  refine ⟨?_, ?_, ?_, hinv.advance_reading hcen hcen' hmove h⟩
  · have hstep := advance_exclusive h htells (held_of_mem hinv.exclusive (hmove.mem _))
    have hold := hinv.exclusive
    have hupdate := hmove.update holdsExclusive
    omega
  · have hstep := advance_counting h (held_of_mem hinv.counting (hmove.mem _))
    have hold := hinv.counting
    have hupdate := hmove.update holdsCount
    omega
  · have hfree : sets p = true → m.writer = false := by
      intro hp
      have hsets := hmove.mem sets
      rw [hp, Bool.toNat_true] at hsets
      have hwriting := hcen.writing
      have hone := hinv.writes_le_one
      rw [← Bool.toNat_eq_zero, hinv.writer]
      omega
    have hstep := advance_writer h htells (held_of_mem hinv.writer (hmove.mem _)) hfree
    have hold := hinv.writer
    have hupdate := hmove.update flagged
    omega

/-- A call only enters a function: the threads with each property are the same. -/
theorem start_same {c : Call} (h : start p c = some p') :
    ∀ P ∈ holdsExclusive :: holdsCount :: flagged :: aboutReads, P p' = P p := by
  revert h
  fun_cases start p c <;> rintro ⟨⟩ <;>
    simp [aboutReads, holdsExclusive, holdsCount, flagged, reads, enters, leaves, writes, locks, unlocks]

theorem Inv.start {call : Call} (hinv : Inv c m n) (hmove : Moves n n' p p') (h : start p call = some p') :
    Inv c m n' := by
  have hsame : ∀ P ∈ holdsExclusive :: holdsCount :: flagged :: aboutReads, n' P = n P :=
    fun P hP => hmove.eq_of_far (start_same h P hP)
  simp only [List.forall_mem_cons] at hsame
  obtain ⟨hexclusive, hcount, hflagged, hreads⟩ := hsame
  refine ⟨hinv.exclusive.trans hexclusive.symm, hinv.counting.trans hcount.symm, hinv.writer.trans hflagged.symm, ?_⟩
  exact hinv.reading.imp (fun hc => hc.congr rfl rfl hreads) (fun hw => hw.congr rfl rfl hreads)

end Step

end Ltfs.MrswInvariant
