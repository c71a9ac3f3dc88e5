import Mathlib.Logic.Function.Iterate
import Mathlib.Data.List.Basic

namespace Ltfs.Lib.ShiftRegister

/-- A register of `w` bits that is stepped by a linear, one-to-one function. A symbol is put in at the
first place; what stands at a later place comes one place nearer with each step. -/
structure Register (w : Nat) (β : Type) where
  next : BitVec w → BitVec w
  place : Nat → β → BitVec w
  cells : Nat
  next_xor : ∀ x y, next (x ^^^ y) = next x ^^^ next y
  next_inj : Function.Injective next
  next_place : ∀ i b, i + 1 < cells → next (place (i + 1) b) = place i b

namespace Register

variable {w : Nat} {β : Type} (R : Register w β)

def step (s : BitVec w) (b : β) : BitVec w :=
  R.next (s ^^^ R.place 0 b)

def run (s : BitVec w) (bs : List β) : BitVec w :=
  bs.foldl R.step s

/-- The symbols of a list, side by side from place `i` on. -/
def wordFrom : Nat → List β → BitVec w
  | _, [] => 0#w
  | i, b :: bs => R.place i b ^^^ wordFrom (i + 1) bs

def word (bs : List β) : BitVec w :=
  R.wordFrom 0 bs

/-- Long division takes its symbols in at the last place, behind what has been shifted. -/
def feed (s : BitVec w) (b : β) : BitVec w :=
  R.next s ^^^ R.place (R.cells - 1) b

variable {s t : BitVec w} {bs cs : List β} {i n : Nat}

@[simp] theorem run_nil : R.run s [] = s := rfl

@[simp] theorem run_cons {b : β} : R.run s (b :: bs) = R.run (R.step s b) bs := rfl

@[simp] theorem run_append : R.run s (bs ++ cs) = R.run (R.run s bs) cs :=
  List.foldl_append

theorem iterate_xor (n : Nat) (x y : BitVec w) : R.next^[n] (x ^^^ y) = R.next^[n] x ^^^ R.next^[n] y := by
  induction n generalizing x y with
  | zero => rfl
  | succ n ih => simp only [Function.iterate_succ_apply, R.next_xor, ih]

theorem iterate_inj (n : Nat) : Function.Injective R.next^[n] :=
  R.next_inj.iterate n

theorem next_zero : R.next 0#w = 0#w := by
  have h := R.next_xor 0#w 0#w
  rwa [BitVec.xor_self, BitVec.xor_self] at h

theorem iterate_zero (n : Nat) : R.next^[n] 0#w = 0#w := by
  induction n with
  | zero => rfl
  | succ n ih => rw [Function.iterate_succ_apply, R.next_zero, ih]

theorem next_wordFrom (h : i + 1 + bs.length ≤ R.cells) :
    R.next (R.wordFrom (i + 1) bs) = R.wordFrom i bs := by
  induction bs generalizing i with
  | nil => exact R.next_zero
  | cons b bs ih =>
    simp only [List.length_cons] at h
    rw [wordFrom, R.next_xor, R.next_place i b (by omega), ih (by omega)]
    rfl

/-- Up to as many symbols as there are places can as well be put in all at once. -/
theorem run_eq (h : bs.length ≤ R.cells) : R.run s bs = R.next^[bs.length] (s ^^^ R.word bs) := by
  induction bs generalizing s with
  | nil => simp [word, wordFrom]
  | cons b bs ih =>
    simp only [List.length_cons] at h
    have hnext : R.word bs = R.next (R.wordFrom 1 bs) := (R.next_wordFrom (by omega)).symm
    rw [run_cons, ih (by omega), hnext, step, ← R.next_xor, ← Function.iterate_succ_apply, word, wordFrom,
      BitVec.xor_assoc]
    rfl

theorem run_split : R.run s bs = R.next^[bs.length] s ^^^ R.run 0#w bs := by
  induction bs generalizing s with
  | nil => exact BitVec.xor_zero.symm
  | cons b bs ih =>
    have hzero : R.step 0#w b = R.next (R.place 0 b) := congrArg R.next BitVec.zero_xor
    rw [run_cons, run_cons, ih, @ih (R.step 0#w b), hzero, step, R.next_xor, R.iterate_xor, BitVec.xor_assoc]
    rfl

theorem run_inj (h : R.run s bs = R.run t bs) : s = t := by
  induction bs generalizing s t with
  | nil => exact h
  | cons b bs ih => exact (BitVec.xor_left_inj _).mp (R.next_inj (ih h))

/-- A change within a stretch no longer than the register shows in what is left at the end. -/
theorem burst {p q : List β} (hword : R.word bs = R.word cs → bs = cs) (hlen : bs.length = cs.length)
    (hb : bs.length ≤ R.cells) (h : R.run s (p ++ bs ++ q) = R.run s (p ++ cs ++ q)) : bs = cs := by
  simp only [run_append] at h
  have hmid : R.run (R.run s p) bs = R.run (R.run s p) cs := R.run_inj h
  have hc : cs.length ≤ R.cells := by omega
  rw [R.run_eq hb, R.run_eq hc, ← hlen] at hmid
  exact hword ((BitVec.xor_right_inj _).mp (R.iterate_inj _ hmid))

theorem iterate_place {k : Nat} (b : β) (h : k < R.cells) : R.next^[k] (R.place k b) = R.place 0 b := by
  induction k with
  | zero => rfl
  | succ k ih => rw [Function.iterate_succ_apply, R.next_place k b h, ih (by omega)]

/-- Taking the symbols in at the last place gives the same, but for as many steps as there are places. -/
theorem run_feed (hpos : 0 < R.cells) :
    R.run (R.next^[R.cells] s) bs = R.next^[R.cells] (bs.foldl R.feed s) := by
  induction bs generalizing s with
  | nil => rfl
  | cons b bs ih =>
    have hplace : R.next^[R.cells] (R.place (R.cells - 1) b) = R.next (R.place 0 b) := by
      obtain ⟨k, hk⟩ : ∃ k, R.cells = k + 1 := ⟨R.cells - 1, by omega⟩
      rw [hk, Function.iterate_succ_apply', Nat.add_sub_cancel, R.iterate_place b (by omega)]
    have hstep : R.step (R.next^[R.cells] s) b = R.next^[R.cells] (R.feed s b) := by
      have hshift : R.next (R.next^[R.cells] s) = R.next^[R.cells] (R.next s) := by
        rw [← Function.iterate_succ_apply' R.next, Function.iterate_succ_apply]
      rw [step, feed, R.next_xor, R.iterate_xor, hplace, hshift]
    rw [run_cons, hstep, ih, List.foldl_cons]

/-- A full register of symbols fed in from nothing stands there as it is. -/
theorem feed_word (hpos : 0 < R.cells) (h : bs.length = R.cells) : bs.foldl R.feed 0#w = R.word bs := by
  have hrun : R.run (R.next^[R.cells] 0#w) bs = R.next^[R.cells] (bs.foldl R.feed 0#w) := R.run_feed hpos
  rw [R.iterate_zero, R.run_eq (by omega), h] at hrun
  have hfed : 0#w ^^^ R.word bs = bs.foldl R.feed 0#w := R.iterate_inj _ hrun
  rw [← hfed]
  exact BitVec.zero_xor

theorem feed_xor (op : β → β → β) (hop : ∀ i b c, R.place i (op b c) = R.place i b ^^^ R.place i c)
    (h : bs.length = cs.length) :
    (List.zipWith op bs cs).foldl R.feed (s ^^^ t) = bs.foldl R.feed s ^^^ cs.foldl R.feed t := by
  induction bs generalizing cs s t with
  | nil =>
    rw [List.length_eq_zero_iff.mp h.symm]
    rfl
  | cons b bs ih =>
    cases cs with
    | nil => cases h
    | cons c cs =>
      have hstep : R.feed (s ^^^ t) (op b c) = R.feed s b ^^^ R.feed t c := by
        simp only [feed, hop, R.next_xor]
        ac_rfl
      rw [List.zipWith_cons_cons, List.foldl_cons, hstep, ih (Nat.succ.inj h)]
      rfl

theorem feed_replicate {z : β} (hz : ∀ i, R.place i z = 0#w) (n : Nat) :
    (List.replicate n z).foldl R.feed s = R.next^[n] s := by
  induction n generalizing s with
  | zero => rfl
  | succ n ih =>
    have hstep : R.feed s z = R.next s := by rw [feed, hz, BitVec.xor_zero]
    rw [List.replicate_succ, List.foldl_cons, hstep, ih]
    rfl

/-- Long division of the symbols with room for the remainder behind them, and a first register of symbols
added on top, is the run from that register. -/
theorem feed_augmented {z : β} (op : β → β → β) (hz : ∀ i, R.place i z = 0#w)
    (hop : ∀ i b c, R.place i (op b c) = R.place i b ^^^ R.place i c) (hpos : 0 < R.cells)
    (h : cs.length = R.cells) :
    (List.zipWith op (bs ++ List.replicate R.cells z) (cs ++ List.replicate bs.length z)).foldl R.feed 0#w =
      R.run (R.word cs) bs := by
  have hlen : (bs ++ List.replicate R.cells z).length = (cs ++ List.replicate bs.length z).length := by
    simp only [List.length_append, List.length_replicate, h, Nat.add_comm]
  have hsum := R.feed_xor (s := 0#w) (t := 0#w) op hop hlen
  have hrun : R.run (R.next^[R.cells] 0#w) bs = R.next^[R.cells] (bs.foldl R.feed 0#w) := R.run_feed hpos
  rw [R.iterate_zero] at hrun
  rw [BitVec.xor_self] at hsum
  rw [hsum, List.foldl_append, List.foldl_append, R.feed_replicate hz, R.feed_replicate hz,
    R.feed_word hpos h, R.run_split, hrun, BitVec.xor_comm]

end Register

end Ltfs.Lib.ShiftRegister
