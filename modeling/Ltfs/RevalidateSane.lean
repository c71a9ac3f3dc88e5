import Ltfs.DataSession
import Ltfs.Revalidate

namespace Ltfs.RevalidateSane

open Format Records TapeDevice TapeSpec WriteIndex IndexSession DataSession Revalidate

variable {n b : Nat} {rs : List Record} {t : Tape} {x : Result × Tape} {v : Volume} {f : Tape → Result × Tape}

/-- The head is on the recorded part of a partition of the medium, and the device takes blocks of up to `n` bytes. -/
structure Placed (n : Nat) (t : Tape) : Prop where
  inBounds : InBounds t
  maxBlockSize : t.dev.maxBlockSize = n

theorem previousFilemark_lt (h : previousFilemark rs b = some n) : n < b := by
  induction b with
  | zero => cases h
  | succ b ih =>
    rw [previousFilemark] at h
    split_ifs at h with hb
    · obtain rfl := Option.some.inj h
      exact Nat.lt_succ_self b
    · exact Nat.lt_succ_of_lt (ih h)

theorem nextFilemark_lt (h : nextFilemark rs b = some n) : n < rs.length := by
  rw [nextFilemark, Option.map_eq_some_iff] at h
  obtain ⟨i, hi, rfl⟩ := h
  obtain ⟨hlt, -⟩ := List.findIdx?_eq_some_iff_findIdx_eq.1 hi
  rw [List.length_drop] at hlt
  omega

theorem Placed.moveTo (h : Placed n t) (hb : b ≤ (t.recs t.dev.part).length) : Placed n (moveTo t b) :=
  ⟨hb, h.maxBlockSize⟩

theorem Placed.setAppendPosition (h : Placed n t) (p : Part) (b : Nat) : Placed n (t.setAppendPosition p b) :=
  ⟨h.inBounds, h.maxBlockSize⟩

theorem Placed.andThenTape (hx : Placed n x.2) (hf : ∀ t, Placed n t → Placed n (f t).2) :
    Placed n (andThenTape x f).2 := by
  obtain ⟨r, t⟩ := x
  cases r with
  | error e => exact hx
  | ok a => exact hf t hx

theorem Placed.spacefmBack (h : Placed n t) (a : Answer) : Placed n (spacefmBack t a).2 := by
  cases a with
  | fail e => exact h
  | good early prog =>
    rw [Revalidate.spacefmBack]
    split
    · exact h.moveTo (Nat.zero_le _)
    · rename_i b hb
      exact h.moveTo (Nat.le_trans (Nat.le_of_lt (previousFilemark_lt hb)) h.inBounds)

theorem Placed.spacefmForward (h : Placed n t) (a : Answer) : Placed n (spacefmForward t a).2 := by
  cases a with
  | fail e => exact h
  | good early prog =>
    rw [Revalidate.spacefmForward]
    split
    · exact h.moveTo (Nat.le_refl _)
    · rename_i b hb
      exact h.moveTo (nextFilemark_lt hb)

theorem Placed.loadTape (h : Placed n t) (io : RevalIo) : Placed n (loadTape io t).2 := by
  rw [Revalidate.loadTape]
  cases io.load with
  | fail e => exact h
  | good early prog => exact ⟨Nat.zero_le _, h.maxBlockSize⟩

theorem Placed.seekEod (h : Placed n t) (p : Part) (a : Answer) : Placed n (t.seekEod p a).2 := by
  cases a with
  | fail e => exact h
  | good early prog => exact ⟨Nat.le_refl _, h.maxBlockSize⟩

theorem Placed.ite {c : Prop} [Decidable c] {y : Result × Tape} (hx : Placed n x.2) (hy : Placed n y.2) :
    Placed n (if c then x else y).2 := by
  split_ifs
  · exact hx
  · exact hy

theorem Placed.spaceToIndex (h : Placed n t) (answer : Nat → Answer) (eod : Nat) :
    Placed n (spaceToIndex answer eod t).2 := by
  refine .andThenTape (h.spacefmBack _) fun t ht => .ite ht ?_
  exact .andThenTape (ht.spacefmBack _) fun t ht => ht.spacefmForward _

theorem Placed.ltfsRevalidateMam (h : Placed n t) (io : RevalIo) (v : Volume) :
    Placed n (ltfsRevalidateMam io v t).2 := by
  rw [Revalidate.ltfsRevalidateMam]
  split
  · exact h
  · exact h
  · exact .ite h h

theorem Placed.revalidateDp (h : Placed n t) (io : RevalIo) (v : Volume) (saved : Nat) :
    Placed n (revalidateDp io v saved t).2 := by
  refine .andThenTape ((h.seekEod _ _).setAppendPosition _ _) fun t ht => .ite ht (.andThenTape (.ite ?_ ht) ?_)
  · exact .andThenTape (ht.spaceToIndex _ _) fun t ht => .ite ht ht
  · exact fun t ht => .ite ht ht

theorem Placed.revalidateIp (h : Placed n t) (io : RevalIo) (v : Volume) (saved : Nat) :
    Placed n (revalidateIp io v saved t).2 := by
  refine .andThenTape (h.seekEod _ _) fun t ht => ?_
  have ht := ht.setAppendPosition .ip saved
  refine .ite ht (.andThenTape (.ite ?_ ht) fun t ht => .ite ht ht)
  exact .andThenTape (ht.spaceToIndex _ _) fun t ht => .ite ht ht

/-- A revalidation leaves the position on the medium, however it ends. -/
theorem ltfsRevalidate_sane (io : RevalIo) (h : Sane v) : Sane (ltfsRevalidate io v).2 := by
  have hstart : Placed v.tape.dev.maxBlockSize v.tape := ⟨h.inBounds, rfl⟩
  have hplaced : ∀ x : Result × Tape, Placed v.tape.dev.maxBlockSize x.2 →
      Sane { v with tape := { x.2 with dev := { x.2.dev with fence := false } }, reval := x.1 ≠ .ok () } := by
    intro x hx
    refine ⟨hx.inBounds, ?_⟩
    have hfits := h.fits
    rw [FitsDevice, ← hx.maxBlockSize] at hfits
    exact hfits
  refine hplaced _ (.andThenTape ?_ fun t ht => ?_)
  · cases io.setup with
    | fail e => exact hstart
    | good early prog => exact hstart
  · refine .andThenTape (ht.loadTape io) fun t ht => ?_
    refine .andThenTape (ht.ltfsRevalidateMam io v) fun t ht => ?_
    refine .andThenTape (ht.revalidateDp io v _) fun t ht => ?_
    exact ht.revalidateIp io v _

end Ltfs.RevalidateSane
