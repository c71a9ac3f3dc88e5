import Ltfs.Crc32cSpec

namespace Ltfs.Crc32cCheck

open Ltfs.Crc32c Ltfs.Crc32cSpec Ltfs.Lib.ShiftRegister

/-- What the first `n` bytes of a buffer and the four behind them come to, on any processor and at any
address: the bitwise CRC, an encoding that the check lets through as its callers read it (a negative value
is an error), and none that differs from one in a stretch of four bytes. -/
structure Protects (buf : List (BitVec 8)) (n : Nat) : Prop where
  crc : ∀ cpu addr, crc32c cpu addr buf n = crc32cBitwise (buf.take n)
  copied : ∀ cpu addr, memcpyCrc32c cpu addr buf n = (buf.take n, crc32cBitwise (buf.take n))
  accepts : ∀ cpu addr cpu' addr', 0 ≤ crc32cCheck cpu' addr' (crc32cEnc cpu addr buf n) n
  rejects : ∀ cpu addr cpu' addr' p w w' q, crc32cEnc cpu addr buf n = p ++ w ++ q →
    w.length = w'.length → w.length ≤ 4 → w ≠ w' → crc32cCheck cpu' addr' (p ++ w' ++ q) n = -1

variable {buf data four rest p q w w' : List (BitVec 8)} {n : Nat} {cpu : Cpu} {addr : Nat}

theorem octet_mask (x : BitVec 32) : (x &&& 0xff#32).setWidth 8 = x.setWidth 8 := by
  apply BitVec.eq_of_getLsbD_eq
  intro j hj
  simp only [BitVec.getLsbD_setWidth, BitVec.getLsbD_and, getLsbD_mask, hj, decide_true, Bool.and_true]

/-- A word is its low byte and what is above it. -/
theorem low_join (x : BitVec 32) : (x.setWidth 8).setWidth 32 ||| ((x >>> 8) <<< 8) = x := by
  apply BitVec.eq_of_getLsbD_eq
  intro j hj
  simp only [BitVec.getLsbD_or, BitVec.getLsbD_setWidth, BitVec.getLsbD_shiftLeft, BitVec.getLsbD_ushiftRight,
    hj, decide_true, Bool.true_and]
  by_cases hlow : j < 8
  · simp [hlow]
  · simp [hlow, show 8 + (j - 8) = j by omega]

theorem loadWord_crcBytes (reg : BitVec 32) : loadWord 32 (crcBytes reg) = reg := by
  have hbytes : crcBytes reg = [reg.setWidth 8, (reg >>> 8).setWidth 8, (reg >>> 16).setWidth 8,
      (reg >>> 24).setWidth 8] :=
    congrArg₂ List.cons (octet_mask reg) (congrArg₂ List.cons (octet_mask (reg >>> 8))
      (congrArg₂ List.cons (octet_mask (reg >>> 16)) (congrArg₂ List.cons (octet_mask (reg >>> 24)) rfl)))
  have hnil : (0 : BitVec 32) = (reg >>> 24) >>> 8 := by
    apply BitVec.eq_of_getLsbD_eq
    intro j hj
    simp
  rw [hbytes, loadWord, List.foldr_cons, List.foldr_cons, List.foldr_cons, List.foldr_cons, List.foldr_nil,
    hnil, low_join, BitVec.shiftRight_add reg 16 8, low_join, BitVec.shiftRight_add reg 8 8, low_join, low_join]

theorem crcAt_append {a b c d : BitVec 8} :
    crcAt (data ++ [a, b, c, d] ++ rest) data.length = loadWord 32 [a, b, c, d] := by
  simp [crcAt, loadWord, List.getD, BitVec.shiftLeft_or_distrib, ← BitVec.shiftLeft_add, BitVec.or_assoc]

theorem check_append (h : four.length = 4) :
    crc32cCheck cpu addr (data ++ four ++ rest) data.length =
      if loadWord 32 four = crc32cBitwise data then toInt data.length else -1 := by
  obtain ⟨a, b, c, d, rfl⟩ : ∃ a b c d, four = [a, b, c, d] := by
    match four, h with
    | [a, b, c, d], _ => exact ⟨a, b, c, d, rfl⟩
  have htake : (data ++ [a, b, c, d] ++ rest).take data.length = data := by simp
  rw [crc32cCheck, crc32c_eq, crcAt_append, htake, verdict]
  by_cases hcrc : loadWord 32 [a, b, c, d] = crc32cBitwise data
  · simp [hcrc]
  · simp [hcrc]

/-- What the register is left with by data and the right CRC does not depend on the data. -/
theorem crc_iff_residue (h : four.length = 4) :
    loadWord 32 four = crc32cBitwise data ↔
      crc.run 0xffffffff ((data ++ four).flatMap bitsLsb) = shift^[32] 0xffffffff := by
  have hword : crc.word (four.flatMap bitsLsb) = loadWord 32 four := by
    rw [← bits_loadWord (show four.length * 8 = 32 by omega), word_bitsLsb, BitVec.setWidth_eq]
  have hlen : (four.flatMap bitsLsb).length = 32 := by rw [length_bytes, h]
  have hrun : crc.run 0xffffffff ((data ++ four).flatMap bitsLsb) =
      shift^[32] (~~~ crc32cBitwise data ^^^ loadWord 32 four) := by
    have hfits : (four.flatMap bitsLsb).length ≤ crc.cells := by
      rw [hlen]
      exact Nat.le_refl 32
    rw [List.flatMap_append, Register.run_append, crc.run_eq hfits, hword, hlen, run_bytes,
      crc32cBitwise, BitVec.not_not]
    rfl
  have hones : (0xffffffff : BitVec 32) = ~~~ crc32cBitwise data ^^^ crc32cBitwise data := by
    rw [← BitVec.not_xor_left, BitVec.xor_self]
    rfl
  rw [hrun]
  constructor
  · intro heq
    rw [heq, ← hones]
  · intro heq
    have hsame := crc.iterate_inj 32 heq
    rw [hones] at hsame
    exact (BitVec.xor_right_inj _).mp hsame

theorem bitsLsb_inj {c d : BitVec 8} (h : bitsLsb c = bitsLsb d) : c = d := by
  apply BitVec.eq_of_getLsbD_eq
  intro j _
  rw [← getD_bitsLsb, h, getD_bitsLsb]

theorem bytes_inj (hlen : w.length = w'.length) (h : w.flatMap bitsLsb = w'.flatMap bitsLsb) : w = w' := by
  induction w generalizing w' with
  | nil => exact (List.length_eq_zero_iff.mp hlen.symm).symm
  | cons c w ih =>
    cases w' with
    | nil => cases hlen
    | cons d w' =>
      rw [List.flatMap_cons, List.flatMap_cons] at h
      obtain ⟨hc, hw⟩ := List.append_inj h (by simp)
      rw [bitsLsb_inj hc, ih (Nat.succ.inj hlen) hw]

/-- Two buffers with the same residue do not differ in a stretch of four bytes only. -/
theorem bytes_burst {reg : BitVec 32} (hlen : w.length = w'.length) (hfour : w.length ≤ 4)
    (h : crc.run reg ((p ++ w ++ q).flatMap bitsLsb) = crc.run reg ((p ++ w' ++ q).flatMap bitsLsb)) :
    w = w' := by
  have hbits : (w.flatMap bitsLsb).length = (w'.flatMap bitsLsb).length := by
    rw [length_bytes, length_bytes, hlen]
  have hfits : (w.flatMap bitsLsb).length ≤ 32 := by
    rw [length_bytes]
    omega
  simp only [List.flatMap_append] at h
  exact bytes_inj hlen (crc.burst (word_inj hfits hbits) hbits hfits h)

theorem enc_eq (h : buf.length = n + 4) :
    crc32cEnc cpu addr buf n = buf.take n ++ crcBytes (crc32cBitwise (buf.take n)) := by
  rw [crc32cEnc, crc32c_eq, List.drop_of_length_le (by omega), List.append_nil]

/-- An encoding passes the comparison, and the check returns the length as far as an `int` holds it. -/
theorem check_enc (h : buf.length = n + 4) (cpu cpu' : Cpu) (addr addr' : Nat) :
    crc32cCheck cpu' addr' (crc32cEnc cpu addr buf n) n = toInt n := by
  have hlen : (buf.take n).length = n := List.length_take_of_le (by omega)
  have hcheck := @check_append (buf.take n) (crcBytes (crc32cBitwise (buf.take n))) [] cpu' addr' rfl
  rw [hlen, List.append_nil, ← enc_eq h, loadWord_crcBytes, if_pos rfl] at hcheck
  exact hcheck

theorem check_burst (h : buf.length = n + 4) (henc : crc32cEnc cpu addr buf n = p ++ w ++ q)
    (hlen : w.length = w'.length) (hfour : w.length ≤ 4) (hne : w ≠ w') (cpu' : Cpu) (addr' : Nat) :
    crc32cCheck cpu' addr' (p ++ w' ++ q) n = -1 := by
  have hdata : (buf.take n).length = n := List.length_take_of_le (by omega)
  have hsum : (p ++ w ++ q).length = n + 4 := by
    rw [← henc, enc_eq h, List.length_append, hdata]
    rfl
  have hsum' : (p ++ w' ++ q).length = n + 4 := by
    simp only [List.length_append] at hsum ⊢
    omega
  have hvalid := (crc_iff_residue rfl).mp (loadWord_crcBytes (crc32cBitwise (buf.take n)))
  rw [← enc_eq h, henc] at hvalid
  have hfront : ((p ++ w' ++ q).take n).length = n := List.length_take_of_le (by omega)
  have hback : ((p ++ w' ++ q).drop n).length = 4 := by
    rw [List.length_drop]
    omega
  have hcheck := @check_append ((p ++ w' ++ q).take n) _ [] cpu' addr' hback
  rw [hfront, List.append_nil, List.take_append_drop] at hcheck
  rw [hcheck, if_neg]
  intro hmatch
  have hresidue := (crc_iff_residue hback).mp hmatch
  rw [List.take_append_drop, ← hvalid] at hresidue
  exact hne (bytes_burst hlen hfour hresidue.symm)

theorem memcpyCrc32cEnc_eq (h : buf.length = n + 4) :
    memcpyCrc32cEnc cpu addr buf n = crc32cEnc cpu addr buf n := by
  rw [enc_eq h, memcpyCrc32cEnc, memcpyCrc32c_eq]

theorem memcpyCrc32cCheck_eq :
    memcpyCrc32cCheck cpu addr buf n = (buf.take n, crc32cCheck cpu addr buf n) := by
  rw [memcpyCrc32cCheck, memcpyCrc32c_eq, crc32cCheck, crc32c_eq]

/-- The buffers that are protected are those whose length the `int` that is returned can hold. -/
theorem protects_iff (buf : List (BitVec 8)) (n : Nat) (h : buf.length = n + 4) :
    Protects buf n ↔ n % 2 ^ 32 < 2 ^ 31 := by
  constructor
  · intro hprotects
    have haccepts := hprotects.accepts ⟨none, 0⟩ 0 ⟨none, 0⟩ 0
    rw [check_enc h] at haccepts
    exact (toInt_nonneg n).mp haccepts
  · intro hn
    refine ⟨fun cpu addr => crc32c_eq cpu addr buf n, fun cpu addr => memcpyCrc32c_eq cpu addr buf n, ?_, ?_⟩
    · intro cpu addr cpu' addr'
      rw [check_enc h]
      exact (toInt_nonneg n).mpr hn
    · intro cpu addr cpu' addr' p w w' q henc hlen hfour hne
      exact check_burst h henc hlen hfour hne cpu' addr'

/-- Nine bytes and the room for their CRC. -/
theorem protects_iff_nine :
    (List.replicate 13 (0x31#8)).length = 9 + 4 ∧ Protects (List.replicate 13 0x31#8) 9 := by
  refine ⟨List.length_replicate, ?_⟩
  exact (protects_iff _ 9 List.length_replicate).mpr (by decide)

/-- With two gigabytes of data the check returns a negative value for what has just been encoded. -/
theorem valid_refused : ∃ buf n, buf.length = n + 4 ∧
    crc32cCheck ⟨none, 0⟩ 0 (crc32cEnc ⟨none, 0⟩ 0 buf n) n = -2147483648 := by
  refine ⟨List.replicate (2 ^ 31 + 4) 0#8, 2 ^ 31, List.length_replicate, ?_⟩
  rw [check_enc List.length_replicate]
  decide

end Ltfs.Crc32cCheck
