import Ltfs.TapeDevice
import Ltfs.Lib.Run
import Mathlib.Order.Nat

namespace Ltfs.SpaceSpec

open Format Records TapeDevice Lib.Run

/-- The calls that look at the warnings of the drive. -/
inductive Call where
  | write (r : Record) (count : Nat) (ignoreLess ignoreNospc : Bool) (a : Answer)
  | writeFilemark (count : Nat) (ignoreLess ignoreNospc : Bool) (a : Answer)
  | seek (p : Part) (target : Target) (a : Answer)
  | seekEod (p : Part) (a : Answer)

def step (t : Tape) : Call → Tape
  | .write r count ignoreLess ignoreNospc a => (t.write r count ignoreLess ignoreNospc a).2
  | .writeFilemark count ignoreLess ignoreNospc a => (t.writeFilemark count ignoreLess ignoreNospc a).2
  | .seek p target a => (t.seek p target a).2
  | .seekEod p a => (t.seekEod p a).2

/-- How bad the recorded space is. -/
def rank : Space → Nat
  | .writable => 0
  | .lessSpace => 1
  | .noSpace => 2

def level (t : Tape) (p : Part) : Nat :=
  rank (t.dev.partitionSpace.get p)

/-- A write to a full partition that is let through and answered with the programmable early warning alone. -/
def Downgrade (t : Tape) : Call → Prop
  | .write _ count ignoreLess ignoreNospc a =>
    t.dev.partitionSpace.get t.dev.part = .noSpace ∧ t.writeCheck ignoreLess ignoreNospc = .ok () ∧
      count ≤ t.dev.maxBlockSize ∧ a = .good false true
  | .writeFilemark _ ignoreLess ignoreNospc a =>
    t.dev.partitionSpace.get t.dev.part = .noSpace ∧ t.writeCheck ignoreLess ignoreNospc = .ok () ∧ a = .good false true
  | _ => False

variable {t : Tape} {p : Part}

theorem rank_le (s : Space) : rank s ≤ rank .noSpace := by
  cases s <;> decide

/-- Setting the space of the current partition lowers a level exactly if the new value is the better one. -/
theorem level_set_le (s : Space) (u : Tape) (h : u.dev.partitionSpace = t.dev.partitionSpace.set p s) :
    level t ≤ level u ↔ rank (t.dev.partitionSpace.get p) ≤ rank s := by
  constructor
  · intro hle
    have hp := hle p
    rwa [level, level, h, Sides.get_set_self] at hp
  · intro hr q
    rw [level, level, h]
    by_cases hq : q = p
    · rwa [hq, Sides.get_set_self]
    · rw [Sides.get_set_ne _ hq]

theorem level_same (u : Tape) (h : u.dev.partitionSpace = t.dev.partitionSpace) : level t ≤ level u := by
  intro p
  rw [level, level, h]

/-- A seek records what is worse. -/
theorem level_noteWarnings (early prog : Bool) : level t ≤ level (t.noteWarnings early prog) := by
  refine (level_set_le _ _ rfl).mpr ?_
  cases early <;> cases prog <;> cases t.dev.partitionSpace.get t.dev.part <;> decide

/-- A write records the programmable early warning whatever was there. -/
theorem level_noteSpace (early prog : Bool) : level t ≤ level (t.noteSpace early prog) ↔
    ¬ (t.dev.partitionSpace.get t.dev.part = .noSpace ∧ early = false ∧ prog = true) := by
  cases early with
  | true =>
    refine iff_of_true ?_ (by simp)
    exact (level_set_le _ _ rfl).mpr (rank_le _)
  | false =>
    cases prog with
    | false => exact iff_of_true (level_same _ rfl) (by simp)
    | true =>
      rw [level_set_le .lessSpace (t.noteSpace false true) rfl]
      cases t.dev.partitionSpace.get t.dev.part <;> simp [rank]

theorem noteWriteError_space (t : Tape) (e : Errno) :
    (t.noteWriteError e).dev.partitionSpace = t.dev.partitionSpace := by
  rw [Tape.noteWriteError]
  split <;> rfl

/-- What is recorded on the medium does not touch the space, and neither does a refused write. -/
theorem level_answered {s : Tape} (hs : s.dev.partitionSpace = t.dev.partitionSpace) (hp : s.dev.part = t.dev.part)
    (early prog : Bool) (b : Nat) (q : Part) :
    level t ≤ level ((s.noteSpace early prog).setAppendPosition q b) ↔
      ¬ (t.dev.partitionSpace.get t.dev.part = .noSpace ∧ early = false ∧ prog = true) := by
  have ht : level t = level s := by
    funext p
    rw [level, level, hs]
  have hu : level ((s.noteSpace early prog).setAppendPosition q b) = level (s.noteSpace early prog) := rfl
  rw [ht, hu, level_noteSpace, hs, hp]

theorem recordFilemarks_frame (t : Tape) (n : Nat) :
    (t.recordFilemarks n).dev.partitionSpace = t.dev.partitionSpace ∧ (t.recordFilemarks n).dev.part = t.dev.part := by
  induction n with
  | zero => exact ⟨rfl, rfl⟩
  | succ n ih => exact ih

theorem level_write (r : Record) (count : Nat) (il inn : Bool) (a : Answer) :
    level t ≤ level (t.write r count il inn a).2 ↔ ¬ Downgrade t (.write r count il inn a) := by
  rw [Tape.write.eq_def, Downgrade]
  cases hc : t.writeCheck il inn with
  | error e => exact iff_of_true (level_same _ rfl) (by simp)
  | ok u =>
    by_cases hm : t.dev.maxBlockSize < count
    · simp only [if_pos hm]
      exact iff_of_true (level_same _ rfl) fun h => absurd h.2.2.1 (Nat.not_le.mpr hm)
    · simp only [if_neg hm]
      cases a with
      | fail e => exact iff_of_true (level_same _ (noteWriteError_space t e)) (by simp)
      | good early prog =>
        have hs : (t.record r).dev.partitionSpace = t.dev.partitionSpace := rfl
        refine (level_answered hs rfl early prog _ _).trans (not_congr ?_)
        simp [Nat.le_of_not_lt hm]

theorem level_writeFilemark (count : Nat) (il inn : Bool) (a : Answer) :
    level t ≤ level (t.writeFilemark count il inn a).2 ↔ ¬ Downgrade t (.writeFilemark count il inn a) := by
  rw [Tape.writeFilemark.eq_def, Downgrade]
  cases hc : t.writeCheck il inn with
  | error e => exact iff_of_true (level_same _ rfl) (by simp)
  | ok u =>
    cases a with
    | fail e => exact iff_of_true (level_same _ (noteWriteError_space t e)) (by simp)
    | good early prog =>
      obtain ⟨hs, hp⟩ := recordFilemarks_frame t count
      refine (level_answered hs hp early prog _ _).trans (not_congr ?_)
      simp

theorem level_seek (q : Part) (target : Target) (a : Answer) : level t ≤ level (t.seek q target a).2 := by
  rw [Tape.seek.eq_def]
  split
  · exact level_same _ rfl
  · cases a with
    | fail e => exact level_same _ rfl
    | good early prog =>
      have hl : level t ≤ level ((t.locate q target).noteWarnings early prog) :=
        (level_same (t.locate q target) rfl).trans (level_noteWarnings early prog)
      cases target with
      | eod => exact hl
      | block b =>
        simp only
        split <;> exact hl

theorem level_seekEod (q : Part) (a : Answer) : level t ≤ level (t.seekEod q a).2 := by
  cases a with
  | fail e => exact level_same _ rfl
  | good early prog => exact (level_same (t.locate q .eod) rfl).trans (level_noteWarnings early prog)

theorem level_step (t : Tape) (c : Call) : level t ≤ level (step t c) ↔ ¬ Downgrade t c := by
  cases c with
  | write r count il inn a => exact level_write r count il inn a
  | writeFilemark count il inn a => exact level_writeFilemark count il inn a
  | seek q target a => exact iff_of_true (level_seek q target a) id
  | seekEod q a => exact iff_of_true (level_seekEod q a) id

/-- The recorded space is nowhere in a run better than before, on any partition, exactly if the run has no
write to a full partition that ends in the programmable early warning alone. -/
theorem space_worsens_iff (t : Tape) (cs : List Call) :
    (∀ pre mid post, cs = pre ++ (mid ++ post) → ∀ p, level (run step t pre) p ≤ level (run step t (pre ++ mid)) p) ↔
      Meets step (fun t c => ¬ Downgrade t c) t cs := by
  rw [← Meets.congr level_step, meets_le_iff]
  exact Iff.rfl

/-- A full data partition, with the head at its end. -/
def fullTape : Tape where
  dev := {
    part := .dp, block := 4, appendPos := ⟨4, 4⟩, partitionSpace := ⟨.writable, .noSpace⟩, writeProtect := false,
    writeError := false, appendOnlyMode := false, fence := false, maxBlockSize := 524288 }
  medium := ⟨⟨[.label, .filemark, .label, .filemark], [.label, .filemark, .label, .filemark]⟩,
    ⟨⟨0, 0, 0, 0⟩, ⟨0, 0, 0, 0⟩⟩, 1⟩

/-- The filemark in front of an index goes to a full partition; then the partition is no longer full, and the
next block of data is let through. -/
theorem space_recovers :
    level fullTape .dp = 2 ∧ level (step fullTape (.writeFilemark 1 true true (.good false true))) .dp = 1 ∧
      fullTape.writeCheck true false = .error .noSpace ∧
      (step fullTape (.writeFilemark 1 true true (.good false true))).writeCheck true false = .ok () := by
  decide

end Ltfs.SpaceSpec
