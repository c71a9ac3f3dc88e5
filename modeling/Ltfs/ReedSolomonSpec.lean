import Ltfs.ReedSolomon
import Ltfs.Lib.BinaryField
import Ltfs.Lib.LongDivision
import Mathlib.Tactic.ComputeDegree

namespace Ltfs.ReedSolomonSpec

open Polynomial Ltfs.Crc32c Ltfs.ReedSolomon Ltfs.Lib Ltfs.Lib.BinaryField Ltfs.Lib.LongDivision

/-- The field polynomial 0x11D, less its term of degree 8. -/
def fieldTail : BitVec 8 := 0x1D#8

abbrev Gf256 : Type := Residues fieldTail

noncomputable def elt (b : BitVec 8) : Gf256 :=
  residue fieldTail b

noncomputable def generator : Gf256[X] :=
  X ^ 4 + C (elt 0x38) * X ^ 3 + C (elt 0xCF) * X ^ 2 + C (elt 0x38) * X + 1

/-- Bytes read as a polynomial, the first byte the highest coefficient. -/
noncomputable def codePoly (bs : List (BitVec 8)) : Gf256[X] :=
  value elt bs

/-- A word by its bytes, the first of them the highest. -/
def fromOctets (a b c d : BitVec 8) : BitVec 32 :=
  (a.setWidth 32 <<< 24) ||| (b.setWidth 32 <<< 16) ||| (c.setWidth 32 <<< 8) ||| d.setWidth 32

/-- What an entry of the table has to be: the four lower coefficients of the generator, times its index. -/
def multiples (i : BitVec 8) : BitVec 32 :=
  fromOctets (mul fieldTail 0x38 i) (mul fieldTail 0xCF i) (mul fieldTail 0x38 i) i

variable {buf data four rest p q w w' : List (BitVec 8)} {n : Nat}

theorem rsGf256Table_spec : ∀ i < 256, rsGf256Table.getD i 0 = multiples (BitVec.ofNat 8 i) := by
  decide +kernel

theorem elt_xor (a b : BitVec 8) : elt (a ^^^ b) = elt a + elt b :=
  residue_xor

theorem elt_mul (a b : BitVec 8) : elt (mul fieldTail a b) = elt a * elt b :=
  residue_mul a b

theorem elt_add_self (a : BitVec 8) : elt a + elt a = 0 := by
  rw [← elt_xor, BitVec.xor_self]
  exact residue_zero

/-- The index that a step looks up. -/
def index (c : BitVec 8) (reg : BitVec 32) : BitVec 8 :=
  c ^^^ (reg >>> 24).setWidth 8

theorem enc4_eq (c : BitVec 8) (reg : BitVec 32) :
    enc4 c reg = (reg <<< 8) ^^^ multiples (index c reg) := by
  have hindex : c.setWidth 32 ^^^ (reg >>> 24) = (index c reg).setWidth 32 := by
    apply BitVec.eq_of_getLsbD_eq
    intro j hj
    simp only [index, BitVec.getLsbD_xor, BitVec.getLsbD_setWidth, BitVec.getLsbD_ushiftRight, hj, decide_true,
      Bool.true_and]
    by_cases hlow : j < 8
    · simp [hlow]
    · simp [hlow, BitVec.getLsbD_of_ge reg (24 + j) (by omega), BitVec.getLsbD_of_ge c j (by omega)]
  have hnat : ((index c reg).setWidth 32).toNat = (index c reg).toNat := by
    rw [BitVec.toNat_setWidth]
    have hlt := (index c reg).isLt
    omega
  rw [enc4, hindex, hnat, rsGf256Table_spec _ (index c reg).isLt, BitVec.ofNat_toNat, BitVec.setWidth_eq]

theorem octet_eq {x : BitVec 32} {v : BitVec 8} {k : Nat} (h : ∀ j < 8, x.getLsbD (k + j) = v.getLsbD j) :
    (x >>> k).setWidth 8 = v := by
  apply BitVec.eq_of_getLsbD_eq
  intro j hj
  rw [BitVec.getLsbD_setWidth, BitVec.getLsbD_ushiftRight, h j hj]
  simp [hj]

theorem getLsbD_shifted {v : BitVec 8} {k j : Nat} (hj : j < 32) :
    (v.setWidth 32 <<< k).getLsbD j = (decide (k ≤ j) && v.getLsbD (j - k)) := by
  rw [BitVec.getLsbD_shiftLeft, BitVec.getLsbD_setWidth, decide_eq_true hj,
    decide_eq_true (show j - k < 32 by omega), Bool.true_and, Bool.true_and]
  by_cases hk : k ≤ j
  · simp [hk, show ¬ j < k by omega]
  · simp [hk, show j < k by omega]

theorem getLsbD_high {v : BitVec 8} {i : Nat} (h : 8 ≤ i) : v.getLsbD i = false :=
  BitVec.getLsbD_of_ge v i h

theorem getLsbD_fromOctets (a b c d : BitVec 8) {j : Nat} (hj : j < 32) :
    (fromOctets a b c d).getLsbD j = ((decide (24 ≤ j) && a.getLsbD (j - 24)) ||
      (decide (16 ≤ j) && b.getLsbD (j - 16)) || (decide (8 ≤ j) && c.getLsbD (j - 8)) || d.getLsbD j) := by
  simp only [fromOctets, BitVec.getLsbD_or, getLsbD_shifted hj, BitVec.getLsbD_setWidth, hj, decide_true,
    Bool.true_and]

theorem u32ToBe_fromOctets (a b c d : BitVec 8) : u32ToBe (fromOctets a b c d) = [a, b, c, d] := by
  have ha : (fromOctets a b c d >>> 24).setWidth 8 = a := octet_eq fun j hj => by
    rw [getLsbD_fromOctets _ _ _ _ (by omega), getLsbD_high (v := b) (by omega), getLsbD_high (v := c) (by omega),
      getLsbD_high (v := d) (by omega)]
    simp
  have hb : (fromOctets a b c d >>> 16).setWidth 8 = b := octet_eq fun j hj => by
    rw [getLsbD_fromOctets _ _ _ _ (by omega), getLsbD_high (v := c) (by omega), getLsbD_high (v := d) (by omega)]
    simp [show ¬ 24 ≤ 16 + j by omega]
  have hc : (fromOctets a b c d >>> 8).setWidth 8 = c := octet_eq fun j hj => by
    rw [getLsbD_fromOctets _ _ _ _ (by omega), getLsbD_high (v := d) (by omega)]
    simp [show ¬ 24 ≤ 8 + j by omega, show ¬ 16 ≤ 8 + j by omega]
  have hd : (fromOctets a b c d >>> 0).setWidth 8 = d := octet_eq fun j hj => by
    rw [Nat.zero_add, getLsbD_fromOctets _ _ _ _ (by omega)]
    simp [show ¬ 24 ≤ j by omega, show ¬ 16 ≤ j by omega, show ¬ 8 ≤ j by omega]
  rw [BitVec.ushiftRight_zero] at hd
  rw [u32ToBe, ha, hb, hc, hd]

theorem u32ToBe_xor (x y : BitVec 32) : u32ToBe (x ^^^ y) = List.zipWith (· ^^^ ·) (u32ToBe x) (u32ToBe y) := by
  simp [u32ToBe, BitVec.ushiftRight_xor_distrib]

theorem u32ToBe_shift (reg : BitVec 32) :
    u32ToBe (reg <<< 8) = [(reg >>> 16).setWidth 8, (reg >>> 8).setWidth 8, reg.setWidth 8, 0#8] := by
  have hmove : ∀ k ≤ 16, ((reg <<< 8) >>> (k + 8)).setWidth 8 = (reg >>> k).setWidth 8 := by
    intro k hk
    refine octet_eq fun j hj => ?_
    rw [BitVec.getLsbD_shiftLeft, BitVec.getLsbD_setWidth, BitVec.getLsbD_ushiftRight,
      show k + 8 + j - 8 = k + j by omega]
    simp [hj, show k + 8 + j < 32 by omega, show 8 ≤ k + 8 + j by omega]
  have hlow : ((reg <<< 8) >>> 0).setWidth 8 = 0#8 := octet_eq fun j hj => by simp [hj]
  rw [BitVec.ushiftRight_zero] at hlow
  rw [u32ToBe, hmove 16 (by decide), hmove 8 (by decide), hmove 0 (by decide), hlow, BitVec.ushiftRight_zero]

/-- The bytes of the register after a step. -/
theorem u32ToBe_enc4 (c : BitVec 8) (reg : BitVec 32) :
    u32ToBe (enc4 c reg) =
      [(reg >>> 16).setWidth 8 ^^^ mul fieldTail 0x38 (index c reg),
        (reg >>> 8).setWidth 8 ^^^ mul fieldTail 0xCF (index c reg),
        reg.setWidth 8 ^^^ mul fieldTail 0x38 (index c reg), index c reg] := by
  rw [enc4_eq, u32ToBe_xor, u32ToBe_shift, multiples, u32ToBe_fromOctets]
  simp only [List.zipWith_cons_cons, List.zipWith_nil_left, BitVec.zero_xor]

theorem codePoly_u32ToBe (reg : BitVec 32) :
    codePoly (u32ToBe reg) = C (elt ((reg >>> 24).setWidth 8)) * X ^ 3 + C (elt ((reg >>> 16).setWidth 8)) * X ^ 2 +
      C (elt ((reg >>> 8).setWidth 8)) * X + C (elt (reg.setWidth 8)) := by
  simp only [codePoly, u32ToBe, value, List.foldl_cons, List.foldl_nil]
  ring

/-- A step multiplies by `X`, adds the new byte at `X ^ 4` and takes a multiple of the generator off. -/
theorem enc4_dvd (reg : BitVec 32) (c : BitVec 8) :
    generator ∣ codePoly (u32ToBe (enc4 c reg)) - (codePoly (u32ToBe reg) * X + C (elt c) * X ^ 4) := by
  have hself : C (elt (index c reg)) + C (elt (index c reg)) = 0 := by rw [← C_add, elt_add_self, C_0]
  have hindex : C (elt (index c reg)) = C (elt c) + C (elt ((reg >>> 24).setWidth 8)) := by
    rw [← C_add, ← elt_xor, index]
  refine ⟨C (elt (index c reg)), ?_⟩
  rw [u32ToBe_enc4, codePoly_u32ToBe]
  simp only [codePoly, value, List.foldl_cons, List.foldl_nil, elt_xor, elt_mul, C_add, C_mul, generator]
  linear_combination X ^ 4 * hindex - X ^ 4 * hself

instance : Nontrivial Gf256 := by
  apply AdjoinRoot.nontrivial
  rw [degree_modulus]
  decide

theorem generator_monic : generator.Monic := by
  rw [generator]
  monicity!

theorem degree_generator : generator.degree = 4 := by
  rw [generator]
  compute_degree!

theorem generator_coprime : IsCoprime generator X := by
  refine ⟨1, -(X ^ 3 + C (elt 0x38) * X ^ 2 + C (elt 0xCF) * X + C (elt 0x38)), ?_⟩
  rw [generator]
  ring

end Ltfs.ReedSolomonSpec
