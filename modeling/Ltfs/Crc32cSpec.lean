import Ltfs.Crc32c
import Ltfs.Lib.ShiftRegister
import Mathlib.Data.List.GetD

namespace Ltfs.Crc32cSpec

open Ltfs.Crc32c Ltfs.Lib.ShiftRegister

/-- One step of the bitwise definition. -/
def shift (x : BitVec 32) : BitVec 32 :=
  (x >>> 1) ^^^ (if x.getLsbD 0 then polynomial.reverse else 0#32)

def bitByte (reg : BitVec 32) (c : BitVec 8) : BitVec 32 :=
  shift^[8] (reg ^^^ c.setWidth 32)

/-- The bitwise CRC-32C: the reflected polynomial, all ones at the start and over the end. -/
def crc32cBitwise (bs : List (BitVec 8)) : BitVec 32 :=
  ~~~ bs.foldl bitByte 0xffffffff

def place (i : Nat) (b : Bool) : BitVec 32 :=
  if b then BitVec.twoPow 32 i else 0#32

variable {x y reg : BitVec 32} {b : Bool} {i j w : Nat} {c : BitVec 8} {bs : List (BitVec 8)}

theorem reverse_polynomial : polynomial.reverse = 0x82F63B78#32 := by decide +kernel

theorem shift_xor (x y : BitVec 32) : shift (x ^^^ y) = shift x ^^^ shift y := by
  simp only [shift, BitVec.getLsbD_xor, BitVec.ushiftRight_xor_distrib]
  generalize polynomial.reverse = p
  cases x.getLsbD 0 <;> cases y.getLsbD 0
  · simp
  · simp [BitVec.xor_assoc]
  · simp only [Bool.xor_false, if_true, Bool.false_eq_true, if_false, BitVec.xor_zero]
    ac_rfl
  · simp only [Bool.xor_self, Bool.false_eq_true, if_false, if_true, BitVec.xor_zero]
    rw [BitVec.xor_assoc, BitVec.xor_comm p, BitVec.xor_assoc, BitVec.xor_self, BitVec.xor_zero]

/-- The reflected polynomial has the top bit, so that the bit shifted out can be told from the result. -/
theorem shift_top (x : BitVec 32) : (shift x).getLsbD 31 = x.getLsbD 0 := by
  have hpoly : (0x82F63B78#32).getLsbD 31 = true := by decide
  have hhigh : x.getLsbD 32 = false := BitVec.getLsbD_of_ge x 32 (Nat.le_refl 32)
  rw [shift, BitVec.getLsbD_xor, BitVec.getLsbD_ushiftRight, hhigh, Bool.false_xor, reverse_polynomial]
  cases x.getLsbD 0
  · rfl
  · exact hpoly

theorem shift_injective : Function.Injective shift := by
  intro x y h
  have hlow : x.getLsbD 0 = y.getLsbD 0 := by rw [← shift_top x, ← shift_top y, h]
  rw [shift, shift, hlow] at h
  have hshift : x >>> 1 = y >>> 1 := (BitVec.xor_left_inj _).mp h
  apply BitVec.eq_of_getLsbD_eq
  intro i hi
  cases i with
  | zero => exact hlow
  | succ i => simpa [Nat.add_comm] using congrArg (fun v => v.getLsbD i) hshift

theorem shift_place (i : Nat) (b : Bool) (h : i + 1 < 32) : shift (place (i + 1) b) = place i b := by
  have hall : ∀ i : Fin 31, shift (BitVec.twoPow 32 (i.val + 1)) = BitVec.twoPow 32 i.val := by decide +kernel
  cases b with
  | false => exact (by decide +kernel : shift 0#32 = 0#32)
  | true => exact hall ⟨i, by omega⟩

/-- The register of the CRC, a bit at a time. -/
def crc : Register 32 Bool where
  next := shift
  place := place
  cells := 32
  next_xor := shift_xor
  next_inj := shift_injective
  next_place := shift_place

theorem place_xor (i : Nat) (b c : Bool) : place i (b ^^ c) = place i b ^^^ place i c := by
  cases b <;> cases c <;> simp [place]

theorem getLsbD_place (hj : j < 32) : (place i b).getLsbD j = (b && decide (i = j)) := by
  cases b with
  | false => simp [place]
  | true =>
    rw [place, if_pos rfl, BitVec.getLsbD_twoPow]
    grind

theorem getLsbD_wordFrom {l : List Bool} (hj : j < 32) :
    (crc.wordFrom i l).getLsbD j = (decide (i ≤ j) && l.getD (j - i) false) := by
  induction l generalizing i with
  | nil => simp [Register.wordFrom]
  | cons b l ih =>
    rw [Register.wordFrom, BitVec.getLsbD_xor, ih, show crc.place i b = place i b from rfl, getLsbD_place hj]
    by_cases heq : i = j
    · subst heq
      simp [show ¬ i + 1 ≤ i by omega]
    · by_cases hlt : i < j
      · have hsub : j - i = (j - (i + 1)) + 1 := by omega
        simp [heq, hsub, show i + 1 ≤ j by omega, show i ≤ j by omega]
      · simp [heq, show ¬ i + 1 ≤ j by omega, show ¬ i ≤ j by omega]

theorem getLsbD_word {l : List Bool} (hj : j < 32) : (crc.word l).getLsbD j = l.getD j false := by
  simp [Register.word, getLsbD_wordFrom hj]

theorem getD_bitsLsb (v : BitVec w) : (bitsLsb v).getD j false = v.getLsbD j := by
  by_cases hj : j < w
  · simp [bitsLsb, List.getD, hj]
  · simp [bitsLsb, List.getD, hj, BitVec.getLsbD_of_ge v j (by omega)]

@[simp] theorem length_bitsLsb (v : BitVec w) : (bitsLsb v).length = w := by
  simp [bitsLsb]

theorem word_bitsLsb (v : BitVec w) : crc.word (bitsLsb v) = v.setWidth 32 := by
  apply BitVec.eq_of_getLsbD_eq
  intro j hj
  rw [getLsbD_word hj, getD_bitsLsb, BitVec.getLsbD_setWidth]
  simp [hj]

/-- A word of bits that fits into the register is read back from it. -/
theorem word_inj {k l : List Bool} (hk : k.length ≤ 32) (hlen : k.length = l.length)
    (h : crc.word k = crc.word l) : k = l := by
  apply List.ext_getElem hlen
  intro j hjk hjl
  have hbit := congrArg (fun v => v.getLsbD j) h
  simpa [getLsbD_word (show j < 32 by omega), List.getD, hjk, hjl] using hbit

theorem run_bitsLsb (reg : BitVec 32) (c : BitVec 8) : crc.run reg (bitsLsb c) = bitByte reg c := by
  rw [crc.run_eq (by simp [crc]), word_bitsLsb, length_bitsLsb]
  rfl

theorem run_bytes (reg : BitVec 32) (bs : List (BitVec 8)) :
    crc.run reg (bs.flatMap bitsLsb) = bs.foldl bitByte reg := by
  induction bs generalizing reg with
  | nil => rfl
  | cons c bs ih => rw [List.flatMap_cons, Register.run_append, run_bitsLsb, ih, List.foldl_cons]

/-- Eight steps shift the bits above a clear byte down as they are. -/
theorem shift_clear {k : Nat} (h : ∀ i < k, x.getLsbD i = false) : shift^[k] x = x >>> k := by
  induction k generalizing x with
  | zero => rfl
  | succ k ih =>
    have hlow : x.getLsbD 0 = false := h 0 (by omega)
    have hstep : shift x = x >>> 1 := by
      rw [shift, hlow]
      exact BitVec.xor_zero
    rw [Function.iterate_succ_apply, hstep, ih, ← BitVec.shiftRight_add, Nat.add_comm]
    intro i hi
    simpa [Nat.add_comm] using h (i + 1) (by omega)

/-- Every entry of the table is eight steps from its index. -/
theorem crc32cTable_spec : ∀ i < 256, crc32cTable.getD i 0 = shift^[8] (BitVec.ofNat 32 i) := by
  decide +kernel

theorem getLsbD_mask (j : Nat) : (0xff#32).getLsbD j = decide (j < 8) := by
  have hmask : 0xff#32 = (BitVec.allOnes 8).setWidth 32 := by decide
  rw [hmask, BitVec.getLsbD_setWidth, BitVec.getLsbD_allOnes]
  simp only [Bool.and_eq_right_iff_imp, decide_eq_true_eq]
  omega

theorem split_low (reg : BitVec 32) (c : BitVec 8) :
    reg ^^^ c.setWidth 32 = (c.setWidth 32 ^^^ (reg &&& 0xff#32)) ^^^ (reg &&& ~~~0xff#32) := by
  apply BitVec.eq_of_getLsbD_eq
  intro j hj
  simp only [BitVec.getLsbD_xor, BitVec.getLsbD_and, BitVec.getLsbD_not, getLsbD_mask, hj, decide_true]
  cases reg.getLsbD j <;> cases (c.setWidth 32).getLsbD j <;> cases decide (j < 8) <;> rfl

theorem index_lt (reg : BitVec 32) (c : BitVec 8) : (c.setWidth 32 ^^^ (reg &&& 0xff#32)).toNat < 256 := by
  rw [BitVec.toNat_xor, BitVec.toNat_and]
  refine Nat.xor_lt_two_pow (n := 8) ?_ (Nat.and_lt_two_pow _ (by decide))
  rw [BitVec.toNat_setWidth]
  have hc := c.isLt
  omega

theorem shift_high (reg : BitVec 32) : shift^[8] (reg &&& ~~~0xff#32) = reg >>> 8 := by
  rw [shift_clear]
  · apply BitVec.eq_of_getLsbD_eq
    intro j hj
    simp only [BitVec.getLsbD_ushiftRight, BitVec.getLsbD_and, BitVec.getLsbD_not, getLsbD_mask]
    by_cases hlt : 8 + j < 32
    · simp [hlt]
    · simp [BitVec.getLsbD_of_ge reg (8 + j) (by omega)]
  · intro i hi
    have hi' : i < 32 := by omega
    rw [BitVec.getLsbD_and, BitVec.getLsbD_not, getLsbD_mask, decide_eq_true hi, decide_eq_true hi']
    exact Bool.and_false _

theorem crc32cCalc_eq (c : BitVec 8) (reg : BitVec 32) : crc32cCalc c reg = bitByte reg c := by
  have hindex := crc32cTable_spec _ (index_lt reg c)
  rw [BitVec.ofNat_toNat, BitVec.setWidth_eq] at hindex
  have hsplit : bitByte reg c = shift^[8] (c.setWidth 32 ^^^ (reg &&& 0xff#32)) ^^^ (reg >>> 8) := by
    have hxor := crc.iterate_xor 8 (c.setWidth 32 ^^^ (reg &&& 0xff#32)) (reg &&& ~~~0xff#32)
    rw [bitByte, split_low, ← shift_high]
    exact hxor
  rw [hsplit, ← hindex, BitVec.xor_comm]
  rfl

/-- The step of the long division, seen in the reflected register. -/
theorem mod2Step_reverse (r : BitVec 32) (b : Bool) : (mod2Step r b).reverse = crc.feed r.reverse b := by
  have hlast : ((BitVec.ofBool b).setWidth 32).reverse = place 31 b := by
    cases b <;> decide +kernel
  apply BitVec.eq_of_getLsbD_eq
  intro j hj
  have hbit : ((BitVec.ofBool b).setWidth 32).getMsbD j = (place 31 b).getLsbD j := by
    rw [← hlast, BitVec.getLsbD_reverse]
  have hmsb : r.reverse.getLsbD 0 = r.msb := BitVec.getLsbD_reverse
  rw [Register.feed, BitVec.getLsbD_reverse, mod2Step, BitVec.getMsbD_xor, BitVec.getMsbD_xor, hbit,
    BitVec.getMsbD_shiftLeft, BitVec.getLsbD_xor, show crc.next = shift from rfl, shift, BitVec.getLsbD_xor,
    BitVec.getLsbD_ushiftRight, BitVec.getLsbD_reverse, hmsb, Nat.add_comm j 1]
  cases r.msb
  · simp [crc]
  · simp [crc, BitVec.getLsbD_reverse]

theorem mod2_reverse {v : BitVec w} : (mod2 v).reverse = (bitsMsb v).foldl crc.feed 0#32 := by
  have hfold : ∀ (l : List Bool) (r : BitVec 32), (l.foldl mod2Step r).reverse = l.foldl crc.feed r.reverse := by
    intro l
    induction l with
    | nil => exact fun _ => rfl
    | cons b l ih =>
      intro r
      rw [List.foldl_cons, ih, mod2Step_reverse]
      rfl
  rw [mod2, hfold]
  exact congrArg (List.foldl crc.feed · (bitsMsb v)) (by decide +kernel)

theorem getElem_padded (v : BitVec w) {n k : Nat} (h : k < (bitsLsb v ++ List.replicate n false).length) :
    (bitsLsb v ++ List.replicate n false)[k] = v.getLsbD k := by
  rw [List.getElem_append]
  split
  · simp [bitsLsb]
  · next hk =>
    rw [length_bitsLsb] at hk
    rw [BitVec.getLsbD_of_ge v k (by omega), List.getElem_replicate]

/-- The operand of the division is the source with room for the remainder, and the register on top of it. -/
theorem bits_operand (reg : BitVec 32) (v : BitVec w) :
    bitsMsb (v.reverse.setWidth (w + 32) <<< 32 ^^^ reg.reverse.setWidth (w + 32) <<< w) =
      List.zipWith (· ^^ ·) (bitsLsb v ++ List.replicate 32 false) (bitsLsb reg ++ List.replicate w false) := by
  apply List.ext_getElem
  · simp [bitsMsb, Nat.add_comm]
  · intro k hk _
    have hlt : k < w + 32 := by simpa [bitsMsb] using hk
    have hsource : (v.reverse.setWidth (w + 32) <<< 32).getMsbD k = v.getLsbD k := by
      rw [BitVec.getMsbD_shiftLeft, BitVec.getMsbD_setWidth_add (by omega), Nat.add_sub_cancel,
        BitVec.getMsbD_reverse]
    have hreg : (reg.reverse.setWidth (w + 32) <<< w).getMsbD k = reg.getLsbD k := by
      rw [BitVec.getMsbD_shiftLeft, BitVec.getMsbD_setWidth, show k + w + 32 - (w + 32) = k by omega,
        BitVec.getMsbD_reverse]
      simp
    rw [List.getElem_zipWith, getElem_padded, getElem_padded, ← hsource, ← hreg, ← BitVec.getMsbD_xor]
    simp [bitsMsb]

theorem mmCrc32_eq (reg : BitVec 32) (v : BitVec w) : mmCrc32 reg v = crc.run reg (bitsLsb v) := by
  have hz : ∀ i, crc.place i false = 0#32 := fun _ => rfl
  have hlong := @Register.feed_augmented _ _ crc (bitsLsb v) (bitsLsb reg) false xor hz place_xor
    (by decide : 0 < 32) (length_bitsLsb reg)
  rw [word_bitsLsb, BitVec.setWidth_eq, length_bitsLsb] at hlong
  rw [← hlong, mmCrc32, mod2_reverse, bits_operand]
  rfl

theorem mmCrc32U8_eq (reg : BitVec 32) (c : BitVec 8) : mmCrc32U8 reg c = bitByte reg c := by
  rw [mmCrc32U8, mmCrc32_eq, run_bitsLsb]

/-- Where the alignment loop stops, the bytes that are left give from its register what all of them give. -/
theorem alignLoop_fold (size addr : Nat) (bs : List (BitVec 8)) (reg : BitVec 32) :
    (alignLoop size addr bs reg).1.foldl bitByte (alignLoop size addr bs reg).2 = bs.foldl bitByte reg := by
  induction bs generalizing addr reg with
  | nil => rfl
  | cons c bs ih =>
    rw [alignLoop]
    split
    · rw [ih, mmCrc32U8_eq, List.foldl_cons]
    · rfl

theorem getLsbD_loadWord (hj : j < w) :
    (loadWord w bs).getLsbD j = (bs.flatMap bitsLsb).getD j false := by
  induction bs generalizing j with
  | nil => simp [loadWord]
  | cons c bs ih =>
    have hload : loadWord w (c :: bs) = c.setWidth w ||| (loadWord w bs <<< 8) := rfl
    rw [hload, BitVec.getLsbD_or, BitVec.getLsbD_setWidth, BitVec.getLsbD_shiftLeft, List.flatMap_cons]
    by_cases hlow : j < 8
    · rw [List.getD_append _ _ _ _ (by simpa using hlow), getD_bitsLsb]
      simp [hj, hlow]
    · rw [List.getD_append_right _ _ _ _ (by simpa using hlow), ih (by omega), length_bitsLsb,
        BitVec.getLsbD_of_ge c j (by omega)]
      simp [hj, hlow]

theorem length_bytes (bs : List (BitVec 8)) : (bs.flatMap bitsLsb).length = 8 * bs.length := by
  induction bs with
  | nil => rfl
  | cons c bs ih =>
    rw [List.flatMap_cons, List.length_append, ih, length_bitsLsb, List.length_cons]
    omega

/-- A word loaded in the order of the machine has the bits of its bytes in their order. -/
theorem bits_loadWord (h : bs.length * 8 = w) : bitsLsb (loadWord w bs) = bs.flatMap bitsLsb := by
  have hlen : (bitsLsb (loadWord w bs)).length = (bs.flatMap bitsLsb).length := by
    rw [length_bitsLsb, length_bytes]
    omega
  apply List.ext_getElem hlen
  intro k hk hk'
  have hw : k < w := by simpa using hk
  have hbit : (loadWord w bs).getLsbD k = (bs.flatMap bitsLsb).getD k false := getLsbD_loadWord hw
  rw [List.getD_eq_getElem _ _ hk'] at hbit
  rw [← hbit]
  simp [bitsLsb]

theorem mmCrc32Native_eq {arch : Arch} {reg : BitVec (8 * calcSize arch)} (h : bs.length = calcSize arch) :
    (mmCrc32Native arch reg (loadWord (8 * calcSize arch) bs)).setWidth 32 =
      bs.foldl bitByte (reg.setWidth 32) := by
  have hwide : 32 ≤ 8 * calcSize arch := by cases arch <;> decide
  rw [mmCrc32Native, BitVec.setWidth_setWidth_of_le _ hwide, BitVec.setWidth_eq, mmCrc32_eq,
    bits_loadWord (by omega), run_bytes]

theorem wordLoop_fold (arch : Arch) (fuel : Nat) (bs : List (BitVec 8)) (reg : BitVec (8 * calcSize arch)) :
    (wordLoop arch fuel bs reg).1.foldl bitByte ((wordLoop arch fuel bs reg).2.setWidth 32) =
      bs.foldl bitByte (reg.setWidth 32) := by
  induction fuel generalizing bs reg with
  | zero => rfl
  | succ fuel ih =>
    rw [wordLoop]
    split
    · next hle =>
      rw [ih, mmCrc32Native_eq (List.length_take_of_le hle), ← List.foldl_append, List.take_append_drop]
    · rfl

/-- Prefix, words and tail together give what one byte after the other gives, from any address. -/
theorem crc32cSse_eq (arch : Arch) (addr : Nat) (bs : List (BitVec 8)) :
    crc32cSse arch addr bs = bs.foldl bitByte 0xffffffff := by
  have hu8 : mmCrc32U8 = bitByte := by
    funext reg c
    exact mmCrc32U8_eq reg c
  have hwide : 32 ≤ 8 * calcSize arch := by cases arch <;> decide
  rw [crc32cSse, hu8, wordLoop_fold, BitVec.setWidth_setWidth_of_le _ hwide, BitVec.setWidth_eq,
    alignLoop_fold]

theorem sseBranch_eq {cpu : Cpu} (addr : Nat) (bs : List (BitVec 8)) (h : isSse42Supported cpu = true) :
    sseBranch cpu addr bs = bs.foldl bitByte 0xffffffff := by
  obtain ⟨arch, harch⟩ : ∃ arch, cpu.sse42 = some arch := by
    rw [isSse42Supported, Bool.and_eq_true] at h
    exact Option.isSome_iff_exists.mp h.1
  rw [sseBranch, harch]
  exact crc32cSse_eq arch addr bs

theorem table_fold (bs : List (BitVec 8)) (reg : BitVec 32) :
    bs.foldl (fun reg c => crc32cCalc c reg) reg = bs.foldl bitByte reg := by
  have hcalc : (fun reg c => crc32cCalc c reg) = bitByte := by
    funext reg c
    exact crc32cCalc_eq c reg
  rw [hcalc]

theorem crc32c_eq (cpu : Cpu) (addr : Nat) (buf : List (BitVec 8)) (n : Nat) :
    crc32c cpu addr buf n = crc32cBitwise (buf.take n) := by
  rw [crc32c, crc32cBitwise]
  split
  · next h => rw [sseBranch_eq addr _ h]
  · rw [table_fold]

theorem copyStep_fold (bs out : List (BitVec 8)) (reg : BitVec 32) :
    bs.foldl copyStep (out, reg) = (out ++ bs, bs.foldl (fun reg c => crc32cCalc c reg) reg) := by
  induction bs generalizing out reg with
  | nil => simp
  | cons c bs ih => simp [ih, copyStep]

theorem memcpyCrc32c_eq (cpu : Cpu) (addr : Nat) (src : List (BitVec 8)) (n : Nat) :
    memcpyCrc32c cpu addr src n = (src.take n, crc32cBitwise (src.take n)) := by
  rw [memcpyCrc32c, crc32cBitwise]
  split
  · next h => rw [sseBranch_eq addr _ h]
  · rw [copyStep_fold, table_fold, List.nil_append]

end Ltfs.Crc32cSpec
