import Ltfs.ReedSolomonSpec

namespace Ltfs.ReedSolomonCheck

open Polynomial Ltfs.ReedSolomon Ltfs.ReedSolomonSpec Ltfs.Lib Ltfs.Lib.BinaryField
open Ltfs.Lib.LongDivision
open Ltfs.Crc32c (toInt toInt_nonneg verdict)

/-- What the first `n` bytes of a buffer and the four behind them come to: a multiple of the generator with
the remainder behind the data, an encoding that the check lets through as its callers read it (a negative
value is an error), none that differs from one in a stretch of four bytes, and the same with a copy. -/
structure Coded (buf : List (BitVec 8)) (n : Nat) : Prop where
  divisible : generator ∣ codePoly (rsGf256Enc buf n)
  remainder : ∃ crc, rsGf256Enc buf n = buf.take n ++ crc ∧ crc.length = 4 ∧
    codePoly crc = (codePoly (buf.take n) * X ^ 4) %ₘ generator
  accepts : 0 ≤ rsGf256Check (rsGf256Enc buf n) n
  rejects : ∀ p w w' q, rsGf256Enc buf n = p ++ w ++ q → w.length = w'.length → w.length ≤ 4 → w ≠ w' →
    rsGf256Check (p ++ w' ++ q) n = -1
  encCopy : memcpyRsGf256Enc buf n = rsGf256Enc buf n
  checkCopy : ∀ code, memcpyRsGf256Check code n = (code.take n, rsGf256Check code n)

variable {buf data four rest p q w w' : List (BitVec 8)} {n : Nat}

/-- The register behind some data. -/
def crcOf (data : List (BitVec 8)) : BitVec 32 :=
  data.foldl (fun reg c => enc4 c reg) 0

theorem add_self_eq_zero (p : Gf256[X]) : p + p = 0 := by
  have htwo : (1 : Gf256) + 1 = 0 := by
    have hof : AdjoinRoot.of (modulus fieldTail) (1 + 1) = 0 := by
      rw [show (1 + 1 : ZMod 2) = 0 by decide, map_zero]
    rwa [map_add, map_one] at hof
  have hpoly : p + p = C (1 + 1) * p := by
    rw [C_add, C_1]
    ring
  rw [hpoly, htwo, C_0, zero_mul]

theorem length_u32ToBe (reg : BitVec 32) : (u32ToBe reg).length = 4 := rfl

theorem crcOf_dvd (data : List (BitVec 8)) :
    generator ∣ codePoly (u32ToBe (crcOf data)) - codePoly data * X ^ 4 := by
  have hzero : codePoly (u32ToBe 0) = 0 := by
    have helt : elt 0#8 = 0 := residue_zero
    rw [codePoly_u32ToBe]
    simp [helt]
  exact run_dvd elt (fun reg => codePoly (u32ToBe reg)) (fun reg c => enc4 c reg) hzero enc4_dvd data

theorem degree_codePoly_lt (h : four.length = 4) : (codePoly four).degree < generator.degree := by
  have hlt : (codePoly four).degree < four.length := degree_value_lt elt
  rw [h] at hlt
  rw [degree_generator]
  exact hlt

theorem codePoly_append (h : four.length = 4) :
    codePoly (data ++ four) = codePoly data * X ^ 4 + codePoly four := by
  rw [codePoly, value_append, h]
  rfl

theorem codePoly_inj (hlen : w.length = w'.length) (h : codePoly w = codePoly w') : w = w' :=
  List.map_injective_iff.mpr residue_injective (value_inj elt hlen h)

/-- The CRC is the one remainder that makes the whole a multiple of the generator. -/
theorem dvd_iff (h : four.length = 4) :
    generator ∣ codePoly (data ++ four) ↔ four = u32ToBe (crcOf data) := by
  have hself := add_self_eq_zero (codePoly (u32ToBe (crcOf data)))
  rw [codePoly_append h]
  constructor
  · intro hdvd
    have hdiff : generator ∣ codePoly four - codePoly (u32ToBe (crcOf data)) := by
      have hsum := dvd_add hdvd (crcOf_dvd data)
      have hring : codePoly four - codePoly (u32ToBe (crcOf data)) =
          codePoly data * X ^ 4 + codePoly four +
            (codePoly (u32ToBe (crcOf data)) - codePoly data * X ^ 4) := by
        linear_combination -hself
      rwa [hring]
    have hlt : (codePoly four - codePoly (u32ToBe (crcOf data))).degree < generator.degree :=
      (degree_sub_le _ _).trans_lt (max_lt (degree_codePoly_lt h) (degree_codePoly_lt rfl))
    have hzero : codePoly four - codePoly (u32ToBe (crcOf data)) = 0 := by
      by_contra hne
      exact generator_monic.not_dvd_of_degree_lt hne hlt hdiff
    exact codePoly_inj h (sub_eq_zero.mp hzero)
  · rintro rfl
    have hring : codePoly data * X ^ 4 + codePoly (u32ToBe (crcOf data)) =
        -(codePoly (u32ToBe (crcOf data)) - codePoly data * X ^ 4) := by
      linear_combination hself
    rw [hring]
    exact (dvd_neg).mpr (crcOf_dvd data)

theorem fromOctets_u32ToBe (reg : BitVec 32) :
    fromOctets ((reg >>> 24).setWidth 8) ((reg >>> 16).setWidth 8) ((reg >>> 8).setWidth 8) (reg.setWidth 8) =
      reg := by
  apply BitVec.eq_of_getLsbD_eq
  intro j hj
  rw [getLsbD_fromOctets _ _ _ _ hj]
  simp only [BitVec.getLsbD_setWidth, BitVec.getLsbD_ushiftRight]
  by_cases h3 : 24 ≤ j
  · simp [h3, show j - 24 < 8 by omega, show ¬ j - 16 < 8 by omega, show ¬ j - 8 < 8 by omega,
      show ¬ j < 8 by omega]
  · by_cases h2 : 16 ≤ j
    · simp [h3, h2, show j - 16 < 8 by omega, show ¬ j - 8 < 8 by omega, show ¬ j < 8 by omega]
    · by_cases h1 : 8 ≤ j
      · simp [h3, h2, h1, show j - 8 < 8 by omega, show ¬ j < 8 by omega]
      · simp [h3, h2, h1, show j < 8 by omega]

theorem fromOctets_eq_iff {a b c d : BitVec 8} {reg : BitVec 32} :
    fromOctets a b c d = reg ↔ [a, b, c, d] = u32ToBe reg := by
  constructor
  · rintro rfl
    rw [u32ToBe_fromOctets]
  · intro h
    simp only [u32ToBe, List.cons.injEq, and_true] at h
    obtain ⟨rfl, rfl, rfl, rfl⟩ := h
    exact fromOctets_u32ToBe reg

theorem check_append (h : four.length = 4) :
    rsGf256Check (data ++ four) data.length =
      if four = u32ToBe (crcOf data) then toInt data.length else -1 := by
  obtain ⟨a, b, c, d, rfl⟩ : ∃ a b c d, four = [a, b, c, d] := by
    match four, h with
    | [a, b, c, d], _ => exact ⟨a, b, c, d, rfl⟩
  have htake : (data ++ [a, b, c, d]).take data.length = data := by simp
  have hcrc : beToU32 (data ++ [a, b, c, d]) data.length = fromOctets a b c d := by
    simp [beToU32, fromOctets, List.getD]
  have hcode : rsGf256Check (data ++ [a, b, c, d]) data.length =
      verdict (crcOf data) (fromOctets a b c d) data.length := by
    rw [rsGf256Check, htake, hcrc]
    rfl
  rw [hcode, verdict]
  by_cases hmatch : fromOctets a b c d = crcOf data
  · rw [if_pos (fromOctets_eq_iff.mp hmatch)]
    simp [hmatch]
  · rw [if_neg fun heq => hmatch (fromOctets_eq_iff.mpr heq)]
    simp [hmatch]

theorem enc_eq (h : buf.length = n + 4) :
    rsGf256Enc buf n = buf.take n ++ u32ToBe (crcOf (buf.take n)) := by
  rw [rsGf256Enc, List.drop_of_length_le (by omega), List.append_nil]
  rfl

theorem copyStep_fold (bs out : List (BitVec 8)) (reg : BitVec 32) :
    bs.foldl copyStep (out, reg) = (out ++ bs, bs.foldl (fun reg c => enc4 c reg) reg) := by
  induction bs generalizing out reg with
  | nil => simp
  | cons c bs ih => simp [ih, copyStep]

theorem memcpyRsGf256Enc_eq (h : buf.length = n + 4) : memcpyRsGf256Enc buf n = rsGf256Enc buf n := by
  rw [enc_eq h, memcpyRsGf256Enc, copyStep_fold]
  rfl

theorem memcpyRsGf256Check_eq (code : List (BitVec 8)) (n : Nat) :
    memcpyRsGf256Check code n = (code.take n, rsGf256Check code n) := by
  rw [memcpyRsGf256Check, copyStep_fold]
  rfl

theorem enc_dvd (h : buf.length = n + 4) : generator ∣ codePoly (rsGf256Enc buf n) := by
  rw [enc_eq h]
  exact (dvd_iff rfl).mpr rfl

theorem enc_remainder (h : buf.length = n + 4) : ∃ crc, rsGf256Enc buf n = buf.take n ++ crc ∧ crc.length = 4 ∧
    codePoly crc = (codePoly (buf.take n) * X ^ 4) %ₘ generator :=
  ⟨_, enc_eq h, rfl, eq_modByMonic generator_monic (degree_codePoly_lt rfl) (crcOf_dvd _)⟩

/-- An encoding passes the comparison, and the check returns the length as far as an `int` holds it. -/
theorem check_enc (h : buf.length = n + 4) : rsGf256Check (rsGf256Enc buf n) n = toInt n := by
  have hlen : (buf.take n).length = n := List.length_take_of_le (by omega)
  have hcheck := @check_append (buf.take n) _ (length_u32ToBe (crcOf (buf.take n)))
  rwa [hlen, ← enc_eq h, if_pos rfl] at hcheck

theorem check_burst (h : buf.length = n + 4) (henc : rsGf256Enc buf n = p ++ w ++ q)
    (hlen : w.length = w'.length) (hfour : w.length ≤ 4) (hne : w ≠ w') :
    rsGf256Check (p ++ w' ++ q) n = -1 := by
  have hsum : (p ++ w ++ q).length = n + 4 := by
    rw [← henc, enc_eq h, List.length_append, List.length_take_of_le (by omega)]
    rfl
  have hsum' : (p ++ w' ++ q).length = n + 4 := by
    simp only [List.length_append] at hsum ⊢
    omega
  have hfront : ((p ++ w' ++ q).take n).length = n := List.length_take_of_le (by omega)
  have hback : ((p ++ w' ++ q).drop n).length = 4 := by
    rw [List.length_drop]
    omega
  have hcheck := @check_append ((p ++ w' ++ q).take n) _ hback
  rw [hfront, List.take_append_drop] at hcheck
  rw [hcheck, if_neg]
  intro hmatch
  have hdvd := enc_dvd h
  have hdvd' := (dvd_iff hback).mpr hmatch
  rw [henc] at hdvd
  rw [List.take_append_drop] at hdvd'
  have hdeg : (w.length : WithBot ℕ) ≤ generator.degree := by
    rw [degree_generator]
    exact_mod_cast hfour
  have hmap := burst elt generator_monic generator_coprime hlen hdeg hdvd hdvd'
  exact hne (List.map_injective_iff.mpr residue_injective hmap)

/-- The buffers that are coded so are those whose length the `int` that is returned can hold. -/
theorem coded_iff (buf : List (BitVec 8)) (n : Nat) (h : buf.length = n + 4) :
    Coded buf n ↔ n % 2 ^ 32 < 2 ^ 31 := by
  constructor
  · intro hcoded
    have haccepts := hcoded.accepts
    rw [check_enc h] at haccepts
    exact (toInt_nonneg n).mp haccepts
  · intro hn
    have haccepts : 0 ≤ rsGf256Check (rsGf256Enc buf n) n := by
      rw [check_enc h]
      exact (toInt_nonneg n).mpr hn
    exact ⟨enc_dvd h, enc_remainder h, haccepts,
      fun p w w' q henc hlen hfour hne => check_burst h henc hlen hfour hne,
      memcpyRsGf256Enc_eq h, fun code => memcpyRsGf256Check_eq code n⟩

/-- Nine bytes and the room for their CRC. -/
theorem coded_iff_nine :
    (List.replicate 13 0x31#8).length = 9 + 4 ∧ Coded (List.replicate 13 0x31#8) 9 := by
  refine ⟨List.length_replicate, ?_⟩
  exact (coded_iff _ 9 List.length_replicate).mpr (by decide)

/-- With two gigabytes of data the check returns a negative value for what has just been encoded. -/
theorem coded_refused : ∃ buf n, buf.length = n + 4 ∧ rsGf256Check (rsGf256Enc buf n) n = -2147483648 := by
  refine ⟨List.replicate (2 ^ 31 + 4) 0#8, 2 ^ 31, List.length_replicate, ?_⟩
  rw [check_enc List.length_replicate]
  decide

end Ltfs.ReedSolomonCheck
