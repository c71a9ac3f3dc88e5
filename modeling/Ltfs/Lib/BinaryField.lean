import Mathlib.RingTheory.AdjoinRoot
import Mathlib.Algebra.CharP.Two
import Mathlib.Algebra.Field.ZMod

namespace Ltfs.Lib.BinaryField

open Polynomial

variable {w : Nat}

/-- The polynomial that has the bits of a word for its coefficients. -/
noncomputable def poly (a : BitVec w) : (ZMod 2)[X] :=
  ∑ i ∈ Finset.range w, monomial i (if a.getLsbD i then 1 else 0)

/-- The modulus of degree `w`, given by the word of its lower terms. -/
noncomputable def modulus (tail : BitVec w) : (ZMod 2)[X] :=
  X ^ w + poly tail

/-- Multiplication by `X`, as it is done on a word. -/
def double (tail a : BitVec w) : BitVec w :=
  (a <<< 1) ^^^ (if a.msb then tail else 0#w)

/-- The sum of the doublings that the bits of the second factor ask for. -/
def mul (tail a b : BitVec w) : BitVec w :=
  (List.range w).foldl (fun v k => if b.getLsbD k then v ^^^ (double tail)^[k] a else v) 0#w

abbrev Residues (tail : BitVec w) : Type :=
  AdjoinRoot (modulus tail)

/-- The residue that a word stands for. -/
noncomputable def residue (tail a : BitVec w) : Residues tail :=
  AdjoinRoot.mk (modulus tail) (poly a)

variable {tail a b : BitVec w} {i n : Nat}

theorem coeff_poly : (poly a).coeff i = if a.getLsbD i then 1 else 0 := by
  by_cases hi : i < w
  · simp [poly, coeff_monomial, hi]
  · simp [poly, coeff_monomial, hi, BitVec.getLsbD_of_ge a i (by omega)]

theorem poly_xor (a b : BitVec w) : poly (a ^^^ b) = poly a + poly b := by
  ext i
  simp only [coeff_poly, coeff_add, BitVec.getLsbD_xor]
  cases a.getLsbD i <;> cases b.getLsbD i <;> decide

theorem poly_injective : Function.Injective (@poly w) := by
  intro a b h
  apply BitVec.eq_of_getLsbD_eq
  intro i _
  have hcoeff := congrArg (fun p => p.coeff i) h
  simp only [coeff_poly] at hcoeff
  cases ha : a.getLsbD i <;> cases hb : b.getLsbD i <;> simp [ha, hb] at hcoeff ⊢

theorem poly_zero : poly 0#w = 0 := by
  ext i
  simp [coeff_poly]

theorem degree_poly_lt (a : BitVec w) : (poly a).degree < w := by
  rw [degree_lt_iff_coeff_zero]
  intro i hi
  rw [coeff_poly, BitVec.getLsbD_of_ge a i hi]
  rfl

theorem modulus_monic (tail : BitVec w) : (modulus tail).Monic :=
  monic_X_pow_add (degree_poly_lt tail)

theorem degree_modulus (tail : BitVec w) : (modulus tail).degree = w :=
  degree_add_eq_left_of_degree_lt (by rw [degree_X_pow]; exact degree_poly_lt tail) |>.trans (degree_X_pow w)

theorem residue_xor : residue tail (a ^^^ b) = residue tail a + residue tail b := by
  rw [residue, poly_xor, map_add]
  rfl

theorem residue_zero : residue tail 0#w = 0 := by
  rw [residue, poly_zero, map_zero]

/-- A shift multiplies by `X`. The bit shifted out would be the coefficient of `X ^ w`. -/
theorem poly_shiftLeft : poly (a <<< 1) = X * poly a + if a.msb then X ^ w else 0 := by
  have htop : a.msb = a.getLsbD (w - 1) := BitVec.msb_eq_getLsbD_last a
  have hcoeff : ∀ i, (if a.msb then X ^ w else 0 : (ZMod 2)[X]).coeff i =
      if a.msb ∧ i = w then 1 else 0 := by
    intro i
    cases a.msb <;> simp [coeff_X_pow]
  ext i
  rw [coeff_poly, coeff_add, hcoeff, BitVec.getLsbD_shiftLeft]
  cases i with
  | zero =>
    have hnone : ¬ (a.msb = true ∧ 0 = w) := by
      rintro ⟨hm, rfl⟩
      rw [htop, BitVec.getLsbD_of_ge a _ (Nat.zero_le _)] at hm
      exact absurd hm (by decide)
    rw [if_neg hnone]
    simp
  | succ i =>
    rw [coeff_X_mul, coeff_poly, Nat.add_sub_cancel]
    by_cases hlt : i + 1 < w
    · simp [hlt, show ¬ i + 1 = w by omega, show ¬ i + 1 < 1 by omega]
    · by_cases heq : i + 1 = w
      · have hi : a.getLsbD i = a.msb := by rw [htop, show w - 1 = i by omega]
        rw [hi]
        cases a.msb
        · simp
        · simp only [heq, Nat.lt_irrefl, decide_false, Bool.false_and, Bool.false_eq_true, if_false, if_true,
            and_self]
          decide
      · simp [hlt, heq, BitVec.getLsbD_of_ge a i (by omega)]

theorem poly_double : poly (double tail a) = X * poly a + if a.msb then modulus tail else 0 := by
  rw [double, poly_xor, poly_shiftLeft]
  cases a.msb
  · simp [poly_zero]
  · simp only [if_true, modulus]
    ring

theorem residue_double : residue tail (double tail a) = AdjoinRoot.root (modulus tail) * residue tail a := by
  rw [residue, poly_double, map_add, map_mul, AdjoinRoot.mk_X]
  cases a.msb <;> simp [residue]

theorem residue_iterate (k : Nat) :
    residue tail ((double tail)^[k] a) = AdjoinRoot.root (modulus tail) ^ k * residue tail a := by
  induction k with
  | zero => simp
  | succ k ih => rw [Function.iterate_succ_apply', residue_double, ih, pow_succ', mul_assoc]

theorem residue_eq_sum :
    residue tail b = ∑ k ∈ Finset.range w, if b.getLsbD k then AdjoinRoot.root (modulus tail) ^ k else 0 := by
  rw [residue, poly, map_sum]
  refine Finset.sum_congr rfl fun k _ => ?_
  cases b.getLsbD k
  · simp
  · rw [if_pos rfl, if_pos rfl, monomial_one_right_eq_X_pow, map_pow, AdjoinRoot.mk_X]

theorem residue_mul (a b : BitVec w) : residue tail (mul tail a b) = residue tail a * residue tail b := by
  have hpart : ∀ n, residue tail ((List.range n).foldl
      (fun v k => if b.getLsbD k then v ^^^ (double tail)^[k] a else v) 0#w) =
        (∑ k ∈ Finset.range n, if b.getLsbD k then AdjoinRoot.root (modulus tail) ^ k else 0) *
          residue tail a := by
    intro n
    induction n with
    | zero => simp [residue_zero]
    | succ n ih =>
      rw [List.range_succ, List.foldl_append, List.foldl_cons, List.foldl_nil, Finset.sum_range_succ, add_mul,
        ← ih]
      cases b.getLsbD n
      · simp
      · simp only [if_true, residue_xor, residue_iterate]
  rw [mul, hpart, ← residue_eq_sum, mul_comm]

theorem residue_injective : Function.Injective (residue tail) := by
  intro a b h
  have hsum : residue tail (a ^^^ b) = 0 := by
    rw [residue_xor, h, ← residue_xor, BitVec.xor_self, residue_zero]
  have hdvd : modulus tail ∣ poly (a ^^^ b) := AdjoinRoot.mk_eq_zero.mp hsum
  have hzero : poly (a ^^^ b) = poly 0#w := by
    rw [poly_zero]
    exact eq_zero_of_dvd_of_degree_lt hdvd (by rw [degree_modulus]; exact degree_poly_lt _)
  have hxor : a ^^^ b = b ^^^ b := by rw [BitVec.xor_self, poly_injective hzero]
  exact (BitVec.xor_left_inj b).mp hxor

theorem mul_xor (a b c : BitVec w) : mul tail a (b ^^^ c) = mul tail a b ^^^ mul tail a c := by
  apply residue_injective
  rw [residue_mul, residue_xor, residue_xor, residue_mul, residue_mul, mul_add]

end Ltfs.Lib.BinaryField
