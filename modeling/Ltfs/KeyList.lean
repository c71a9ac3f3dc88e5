import Ltfs.Base64Spec
import Ltfs.KeyFormat
import Ltfs.Lib.Split

namespace Ltfs.KeyList

open Base64 Base64Spec KeyFormat Lib.Base64 Split

/-- A key and a key alias as they are written. -/
structure Pair where
  digits : Str
  ascii : Str
  hex : Str
  length_digits : digits.length = 43
  length_ascii : ascii.length = 3
  length_hex : hex.length = 18
  digits_mem : ∀ c ∈ digits, c ∈ alphabet
  ascii_print : ∀ c ∈ ascii, isPrint c = true
  hex_xdigit : ∀ c ∈ hex, isXdigit c = true

namespace Pair

def text (p : Pair) : Str := p.digits ++ pad :: colon :: (p.ascii ++ p.hex)

/-- Two digits a byte -/
def bytesOfHex : Str → Str
  | a :: b :: s => UInt8.ofNat (hexDigitValue a * 16 + hexDigitValue b) :: bytesOfHex s
  | _ => []

/-- The key alias of a pair -/
def keyAlias (p : Pair) : Str := p.ascii ++ bytesOfHex p.hex

/-- The 32 bytes whose encoding is in a pair. Two bits of the last digit are beyond them and may be anything. -/
def HasKey (p : Pair) (dk : Str) : Prop :=
  dk.length = 32 ∧ ∃ ds v, v < 64 ∧ p.digits = ds ++ [digit v] ∧ encode dk = ds ++ [digit (v / 4 * 4), pad]

end Pair

/-- A list of pairs as it is written. -/
def listText : List Pair → Str
  | [] => []
  | p :: ps => p.text ++ behind slash (ps.map Pair.text)

/-- The strings that are taken for `n` keys -/
def Accepts (s : Str) (n : Nat) : Prop :=
  ∃ fuel, getNumOfKeys fuel s = some (.ok n)

/-- The number of pairs is told of just the lists of pairs. -/
def Counted (s : Str) : Prop :=
  ∀ n, Accepts s n ↔ ∃ ps, s = listText ps ∧ ps.length = n

variable {s front rest : Str} {i j n fuel num : Nat} {p q : Pair} {ps : List Pair}

theorem length_text (p : Pair) : p.text.length = 66 := by
  simp [Pair.text, p.length_digits, p.length_ascii, p.length_hex]

theorem length_slice (s : Str) (i n : Nat) : (slice s i n).length = n := by
  simp [slice]

theorem slice_eq (h : i + n ≤ s.length) : slice s i n = (s.drop i).take n := by
  apply List.ext_getElem
  · rw [length_slice, List.length_take, List.length_drop]
    omega
  · intro k hk hk'
    rw [length_slice] at hk
    have hlt : i + k < s.length := by omega
    simp [slice, byteAt, hlt]

/-- A stretch of a string put together from its parts -/
theorem slice_append (a b c : Str) : slice (a ++ (b ++ c)) a.length b.length = b := by
  rw [slice_eq (by simp), List.drop_left, List.take_left]

theorem all_range (P : UInt8 → Bool) (s : Str) (i n : Nat) :
    ((List.range n).all fun j => P (byteAt s (i + j))) = (slice s i n).all P := by
  rw [slice, List.all_map]
  rfl

theorem all_range' (P : UInt8 → Bool) (s : Str) (i a n : Nat) :
    ((List.range' a n).all fun j => P (byteAt s (i + j))) = (slice s (i + a) n).all P := by
  rw [slice, List.all_map, List.range'_eq_map_range, List.all_map]
  simp only [Function.comp_def, Nat.add_assoc]

theorem alphabet_iff (c : UInt8) : (isAlnum c || c = plus || c = slash) = true ↔ c ∈ alphabet := by
  have hall : ∀ n < 256, (isAlnum (UInt8.ofNat n) || UInt8.ofNat n = plus || UInt8.ofNat n = slash) =
      decide (UInt8.ofNat n ∈ alphabet) := by
    rw [alphabet_eq]
    decide +kernel
  have hc := hall c.toNat c.toNat_lt
  rw [UInt8.ofNat_toNat] at hc
  rw [hc, decide_eq_true_iff]

theorem isKey_eq (s : Str) (i : Nat) :
    isKey s i = ((slice s i 43).all (fun c => isAlnum c || c = plus || c = slash) && byteAt s (i + 43) = pad) := by
  have hpad := all_range' (fun c => decide (c = equalsSign)) s i 43 1
  rw [isKey]
  have hone : (slice s (i + 43) 1).all (fun c => decide (c = equalsSign)) = decide (byteAt s (i + 43) = pad) := by
    exact Bool.and_true _
  rw [← hone, ← hpad, ← all_range]
  rfl

theorem isKeyalias_eq (s : Str) (i : Nat) :
    isKeyalias s i = ((slice s i 3).all isPrint && (slice s (i + 3) 18).all isXdigit) := by
  rw [isKeyalias, all_range isPrint, all_range' isXdigit]
  rfl

/-- The checks of a round, at the offset `j` of the pair -/
def isPair (s : Str) (j : Nat) : Bool :=
  isKey s j && byteAt s (j + 44) = colon && isKeyalias s (j + 45)

theorem pair_of_isPair (h : isPair s j = true) (hlen : j + 66 ≤ s.length) :
    ∃ p : Pair, s.drop j = p.text ++ s.drop (j + 66) := by
  rw [isPair, isKey_eq, isKeyalias_eq] at h
  simp only [Bool.and_eq_true, decide_eq_true_iff, List.all_eq_true] at h
  obtain ⟨⟨⟨hdigits, hpad⟩, hcolon⟩, hascii, hhex⟩ := h
  refine ⟨⟨slice s j 43, slice s (j + 45) 3, slice s (j + 45 + 3) 18, length_slice .., length_slice ..,
    length_slice .., fun c hc => (alphabet_iff c).mp (hdigits c hc), hascii, hhex⟩, ?_⟩
  have hbyte : ∀ k, j + k < s.length → s.drop (j + k) = byteAt s (j + k) :: s.drop (j + (k + 1)) := by
    intro k hk
    rw [List.drop_eq_getElem_cons hk]
    simp [byteAt, hk, Nat.add_assoc]
  have hcut : ∀ k m, j + (k + m) ≤ s.length → s.drop (j + k) = slice s (j + k) m ++ s.drop (j + (k + m)) := by
    intro k m hkm
    have hrest : s.drop (j + (k + m)) = (s.drop (j + k)).drop m := by rw [List.drop_drop, Nat.add_assoc]
    rw [slice_eq (by omega), hrest, List.take_append_drop]
  have h₀ := hcut 0 43 (by omega)
  have h₁ := hbyte 43 (by omega)
  have h₂ := hbyte 44 (by omega)
  have h₃ := hcut 45 3 (by omega)
  have h₄ := hcut 48 18 (by omega)
  rw [hpad] at h₁
  rw [hcolon] at h₂
  rw [Nat.add_zero] at h₀
  simp only [Nat.zero_add, Nat.reduceAdd] at h₀ h₁ h₂ h₃ h₄
  rw [h₀, h₁, h₂, h₃, h₄]
  simp [Pair.text, Nat.add_assoc]

theorem drop_text (p : Pair) (front rest : Str) : (front ++ (p.text ++ rest)).drop (front.length + 66) = rest := by
  rw [← length_text p, ← List.length_append, ← List.append_assoc, List.drop_left]

/-- The parts of a pair lie where the checks look for them. -/
theorem slices (p : Pair) (front rest : Str) (hs : s = front ++ (p.text ++ rest)) (hj : j = front.length) :
    slice s j 43 = p.digits ∧ byteAt s (j + 43) = pad ∧ byteAt s (j + 44) = colon ∧ slice s (j + 45) 3 = p.ascii ∧
      slice s (j + 48) 18 = p.hex := by
  subst hs hj
  rw [Pair.text]
  refine ⟨?_, ?_, ?_, ?_, ?_⟩
  · have h := slice_append front p.digits (pad :: colon :: (p.ascii ++ p.hex) ++ rest)
    rw [p.length_digits] at h
    simpa using h
  · have hlen : front.length + 43 = (front ++ p.digits).length := by simp [p.length_digits]
    rw [byteAt, hlen]
    simp
  · have hlen : front.length + 44 = (front ++ p.digits ++ [pad]).length := by simp [p.length_digits]
    rw [byteAt, hlen]
    simp
  · have h := slice_append (front ++ p.digits ++ [pad, colon]) p.ascii (p.hex ++ rest)
    rw [p.length_ascii] at h
    simpa [p.length_digits] using h
  · have h := slice_append (front ++ p.digits ++ [pad, colon] ++ p.ascii) p.hex rest
    rw [p.length_hex] at h
    simpa [p.length_digits, p.length_ascii] using h

theorem isPair_text (p : Pair) (front rest : Str) (hs : s = front ++ (p.text ++ rest)) (hj : j = front.length) :
    isPair s j = true := by
  obtain ⟨hdigits, hpad, hcolon, hascii, hhex⟩ := slices p front rest hs hj
  rw [isPair, isKey_eq, isKeyalias_eq, hdigits, hcolon, hpad, hascii, Nat.add_assoc j 45 3, hhex]
  have hall : p.digits.all (fun c => isAlnum c || c = plus || c = slash) = true :=
    List.all_eq_true.mpr fun c hc => (alphabet_iff c).mpr (p.digits_mem c hc)
  rw [hall, List.all_eq_true.mpr p.ascii_print, List.all_eq_true.mpr p.hex_xdigit]
  simp

theorem wrap_eq (h : n < 2 ^ 32) : wrap n = n := Nat.mod_eq_of_lt h

theorem byteAt_ge (h : s.length ≤ i) : byteAt s i = 0 := by
  rw [byteAt, List.getD_eq_getElem?_getD, List.getElem?_eq_none h]
  rfl

/-- There is a separator and room for another pair. -/
theorem more_iff (hs : s.length < 2 ^ 32) :
    wrap (i + 1) + 44 + 1 + 21 ≤ s.length ∧ byteAt s i = slash ↔ i + 67 ≤ s.length ∧ byteAt s i = slash := by
  apply and_congr_left
  intro hslash
  have hlt : i < s.length := by
    by_contra hge
    rw [byteAt_ge (Nat.le_of_not_lt hge)] at hslash
    cases hslash
  rw [wrap_eq (by omega)]

/-- A round of the loop -/
theorem pairsLoop_succ (hs : s.length < 2 ^ 32) (hj : (if num = 0 then i else wrap (i + 1)) = j)
    (hlen : j + 66 ≤ s.length) :
    pairsLoop s (fuel + 1) i num =
      if isPair s j then
        if j + 66 + 67 ≤ s.length ∧ byteAt s (j + 66) = slash then pairsLoop s fuel (j + 66) (num + 1)
        else some (.ok (j + 66, num + 1))
      else some (.error .badArg) := by
  have hj' : (if num = 0 then i else wrap (i + separatorLength)) = j := hj
  have h₁ : wrap (j + keyLength) = j + 44 := wrap_eq (by have : keyLength = 44 := rfl; omega)
  have h₂ : wrap (j + 44 + separatorLength) = j + 45 := wrap_eq (by have : separatorLength = 1 := rfl; omega)
  have h₃ : wrap (j + 45 + keyaliasLength) = j + 66 := wrap_eq (by have : keyaliasLength = 21 := rfl; omega)
  rw [pairsLoop]
  simp only [hj', h₁, h₂, h₃]
  by_cases hkey : isKey s j = true
  · by_cases hcolon : byteAt s (j + 44) = colon
    · by_cases hkeyalias : isKeyalias s (j + 45) = true
      · have hpair : isPair s j = true := by simp [isPair, hkey, hcolon, hkeyalias]
        rw [if_neg (not_not.mpr hkey), if_neg (not_not.mpr hcolon), if_neg (not_not.mpr hkeyalias), if_pos hpair]
        exact if_congr (more_iff hs) rfl rfl
      · have hpair : ¬ isPair s j = true := by simp [isPair, hkeyalias]
        rw [if_neg (not_not.mpr hkey), if_neg (not_not.mpr hcolon), if_pos hkeyalias, if_neg hpair]
    · have hpair : ¬ isPair s j = true := by simp [isPair, hcolon]
      rw [if_neg (not_not.mpr hkey), if_pos hcolon, if_neg hpair]
  · have hpair : ¬ isPair s j = true := by simp [isPair, hkey]
    rw [if_pos hkey, if_neg hpair]

theorem text_inj {a b : Str} (h : p.text ++ a = q.text ++ b) : p.text = q.text ∧ a = b :=
  List.append_inj h (by rw [length_text, length_text])

/-- What the loop finds from a pair on: the end of the string if the rest of it is a list of pairs. -/
theorem pairsLoop_spec (hs : s.length < 2 ^ 32) (hj : (if num = 0 then i else wrap (i + 1)) = j)
    (hlen : j + 66 ≤ s.length) (hfuel : s.length < j + fuel) :
    ∃ r, pairsLoop s fuel i num = some r ∧
      ∀ m, r = .ok (s.length, m) ↔ ∃ p ps, s.drop j = listText (p :: ps) ∧ m = num + (ps.length + 1) := by
  induction fuel generalizing i j num with
  | zero => omega
  | succ fuel ih =>
    rw [pairsLoop_succ hs hj hlen]
    by_cases hpair : isPair s j = true
    · obtain ⟨p, hp⟩ := pair_of_isPair hpair hlen
      have hhead : ∀ q qs, s.drop j = listText (q :: qs) → s.drop (j + 66) = behind slash (qs.map Pair.text) := by
        intro q qs hq
        rw [hp, listText] at hq
        exact (text_inj hq).2
      rw [if_pos hpair]
      by_cases hmore : j + 66 + 67 ≤ s.length ∧ byteAt s (j + 66) = slash
      · obtain ⟨hroom, hslash⟩ := hmore
        rw [if_pos ⟨hroom, hslash⟩]
        have hnext : (if num + 1 = 0 then j + 66 else wrap (j + 66 + 1)) = j + 67 := by
          rw [if_neg (Nat.succ_ne_zero num), wrap_eq (by omega)]
        obtain ⟨r, hr, hspec⟩ := ih hnext (by omega) (by omega)
        have hsep : s.drop (j + 66) = slash :: s.drop (j + 67) := by
          have hlt : j + 66 < s.length := by omega
          rw [List.drop_eq_getElem_cons hlt, ← hslash]
          simp [byteAt, hlt]
        refine ⟨r, hr, fun m => ?_⟩
        rw [hspec]
        constructor
        · rintro ⟨q, qs, hq, rfl⟩
          refine ⟨p, q :: qs, ?_, by simp; omega⟩
          rw [hp, hsep, hq, listText, listText, List.map_cons, behind_cons]
        · rintro ⟨q, qs, hq, rfl⟩
          have hrest := hhead q qs hq
          rw [hsep] at hrest
          cases qs with
          | nil => cases hrest
          | cons q' qs =>
            rw [List.map_cons, behind_cons] at hrest
            exact ⟨q', qs, (List.cons.inj hrest).2, by simp; omega⟩
      · rw [if_neg hmore]
        refine ⟨_, rfl, fun m => ?_⟩
        rw [Except.ok.injEq, Prod.mk.injEq]
        constructor
        · rintro ⟨hend, rfl⟩
          refine ⟨p, [], ?_, rfl⟩
          rw [hp, hend, List.drop_length]
          rfl
        · rintro ⟨q, qs, hq, rfl⟩
          have hrest := hhead q qs hq
          cases qs with
          | nil =>
            have hnil : s.length ≤ j + 66 := List.drop_eq_nil_iff.mp hrest
            exact ⟨by omega, rfl⟩
          | cons q' qs =>
            exfalso
            rw [List.map_cons, behind_cons] at hrest
            apply hmore
            have hle := congrArg List.length hrest
            simp only [List.length_drop, List.length_cons, List.length_append, length_text] at hle
            refine ⟨by omega, ?_⟩
            have hget := congrArg (fun t => t.getD 0 0) hrest
            simpa [byteAt] using hget
    · rw [if_neg hpair]
      refine ⟨_, rfl, fun m => iff_of_false nofun ?_⟩
      rintro ⟨q, qs, hq, _⟩
      apply hpair
      refine isPair_text q (s.take j) (behind slash (qs.map Pair.text)) ?_ ?_
      · rw [listText] at hq
        rw [← hq, List.take_append_drop]
      · rw [List.length_take]
        omega

/-- A round ends the loop, or goes on at an offset that does not depend on the bound. -/
theorem pairsLoop_round (s : Str) (i num : Nat) :
    (∀ fuel, pairsLoop s (fuel + 1) i num = some (.error .badArg)) ∨
    ∃ k < 2 ^ 32, (∀ fuel, pairsLoop s (fuel + 1) i num = some (.ok (k, num + 1))) ∨
      ∀ fuel, pairsLoop s (fuel + 1) i num = pairsLoop s fuel k (num + 1) := by
  simp only [pairsLoop]
  generalize (if num = 0 then i else wrap (i + separatorLength)) = j
  by_cases hkey : isKey s j = true
  · by_cases hcolon : byteAt s (wrap (j + keyLength)) = colon
    · by_cases hkeyalias : isKeyalias s (wrap (wrap (j + keyLength) + separatorLength)) = true
      · right
        refine ⟨wrap (wrap (wrap (j + keyLength) + separatorLength) + keyaliasLength), Nat.mod_lt _ (by decide), ?_⟩
        simp only [if_neg (not_not.mpr hkey), if_neg (not_not.mpr hcolon), if_neg (not_not.mpr hkeyalias)]
        by_cases hmore : wrap (wrap (wrap (wrap (j + keyLength) + separatorLength) + keyaliasLength) + separatorLength) +
            keyLength + separatorLength + keyaliasLength ≤ s.length ∧
            byteAt s (wrap (wrap (wrap (j + keyLength) + separatorLength) + keyaliasLength)) = slash
        · exact .inr fun fuel => if_pos hmore
        · exact .inl fun fuel => if_neg hmore
      · left
        intro fuel
        rw [if_neg (not_not.mpr hkey), if_neg (not_not.mpr hcolon), if_pos hkeyalias]
    · left
      intro fuel
      rw [if_neg (not_not.mpr hkey), if_pos hcolon]
  · left
    intro fuel
    rw [if_pos hkey]

theorem pairsLoop_mono {r : Except KeyFormat.Fault (Nat × Nat)} {i fuel' : Nat} (hle : fuel ≤ fuel')
    (h : pairsLoop s fuel i num = some r) : pairsLoop s fuel' i num = some r := by
  induction fuel generalizing i num fuel' with
  | zero => cases h
  | succ fuel ih =>
    obtain ⟨k, rfl⟩ : ∃ k, fuel' = k + 1 := ⟨fuel' - 1, by omega⟩
    obtain hround | ⟨_, _, hround | hround⟩ := pairsLoop_round s i num
    · rw [hround] at h ⊢
      exact h
    · rw [hround] at h ⊢
      exact h
    · rw [hround] at h ⊢
      exact ih (by omega) h

/-- The offset is an `unsigned int`, so the end of a long string is out of its reach. -/
theorem pairsLoop_lt {i k m : Nat} (h : pairsLoop s fuel i num = some (.ok (k, m))) : k < 2 ^ 32 := by
  induction fuel generalizing i num with
  | zero => cases h
  | succ fuel ih =>
    obtain hround | ⟨l, hl, hround | hround⟩ := pairsLoop_round s i num
    · rw [hround] at h
      cases h
    · rw [hround] at h
      obtain ⟨rfl, _⟩ := Prod.mk.inj (Except.ok.inj (Option.some.inj h))
      exact hl
    · rw [hround] at h
      exact ih h

theorem accepts_short (h : s.length < 66) : Accepts s n ↔ n = 0 := by
  have hget : ∀ fuel, getNumOfKeys fuel s = some (.ok 0) := fun fuel => if_neg (Nat.not_le.mpr h)
  constructor
  · rintro ⟨fuel, hn⟩
    rw [hget] at hn
    exact (Except.ok.inj (Option.some.inj hn)).symm
  · rintro rfl
    exact ⟨0, hget 0⟩

theorem getNumOfKeys_ok (h : 66 ≤ s.length) :
    getNumOfKeys fuel s = some (.ok n) ↔ pairsLoop s fuel 0 0 = some (.ok (s.length, n)) := by
  have hroom : keyLength + separatorLength + keyaliasLength ≤ s.length := h
  rw [getNumOfKeys, if_pos hroom]
  cases hr : pairsLoop s fuel 0 0 with
  | none => simp
  | some r =>
    cases r with
    | error e => simp
    | ok c =>
      obtain ⟨i, m⟩ := c
      by_cases hi : i = s.length
      · simp [hi]
      · simp [hi]

theorem getNumOfKeys_mono {r : Except KeyFormat.Fault Nat} {fuel' : Nat} (hle : fuel ≤ fuel')
    (h : getNumOfKeys fuel s = some r) : getNumOfKeys fuel' s = some r := by
  rw [getNumOfKeys] at h ⊢
  by_cases hroom : keyLength + separatorLength + keyaliasLength ≤ s.length
  · rw [if_pos hroom] at h ⊢
    cases hr : pairsLoop s fuel 0 0 with
    | none =>
      rw [hr] at h
      cases h
    | some c =>
      rw [hr] at h
      rw [pairsLoop_mono hle hr]
      exact h
  · rw [if_neg hroom] at h ⊢
    exact h

theorem accepts_iff (h : 66 ≤ s.length) (hs : s.length < 2 ^ 32) :
    Accepts s n ↔ ∃ p ps, s = listText (p :: ps) ∧ n = ps.length + 1 := by
  have hspec : ∀ fuel, s.length < 0 + fuel → ∃ r, pairsLoop s fuel 0 0 = some r ∧ ∀ m, r = .ok (s.length, m) ↔
      ∃ p ps, s.drop 0 = listText (p :: ps) ∧ m = 0 + (ps.length + 1) :=
    fun fuel => pairsLoop_spec hs (if_pos rfl) (by omega)
  constructor
  · rintro ⟨fuel, hn⟩
    rw [getNumOfKeys_ok h] at hn
    obtain ⟨r, hr, hlist⟩ := hspec (max fuel (s.length + 1)) (by omega)
    rw [pairsLoop_mono (Nat.le_max_left fuel (s.length + 1)) hn] at hr
    obtain ⟨p, ps, hps, hm⟩ := (hlist n).mp (Option.some.inj hr).symm
    exact ⟨p, ps, hps, by rw [hm, Nat.zero_add]⟩
  · rintro ⟨p, ps, hps, rfl⟩
    obtain ⟨r, hr, hlist⟩ := hspec (s.length + 1) (by omega)
    refine ⟨s.length + 1, (getNumOfKeys_ok h).mpr ?_⟩
    rw [hr, (hlist _).mpr ⟨p, ps, hps, by rw [Nat.zero_add]⟩]

theorem not_accepts (h : 2 ^ 32 ≤ s.length) : ¬ Accepts s n := by
  rintro ⟨fuel, hn⟩
  rw [getNumOfKeys_ok (by omega)] at hn
  exact absurd (pairsLoop_lt hn) (by omega)

theorem length_listText (p : Pair) (ps : List Pair) : 66 ≤ (listText (p :: ps)).length := by
  rw [listText, List.length_append, length_text]
  omega

/-- The syntax check is right but for short strings that are not empty, and for lists that are too long for the
offset. -/
theorem counted_iff (s : Str) :
    Counted s ↔ (s = [] ∨ 66 ≤ s.length) ∧ (s.length < 2 ^ 32 ∨ ¬ ∃ ps, s = listText ps) := by
  by_cases hempty : s = []
  · subst hempty
    refine iff_of_true (fun n => ?_) ⟨.inl rfl, .inl (by decide)⟩
    rw [accepts_short (by decide)]
    constructor
    · rintro rfl
      exact ⟨[], rfl, rfl⟩
    · rintro ⟨ps, hps, rfl⟩
      cases ps with
      | nil => rfl
      | cons p ps =>
        have hlen := length_listText p ps
        rw [← hps] at hlen
        exact absurd hlen (by decide)
  by_cases hshort : 66 ≤ s.length
  · by_cases hlong : s.length < 2 ^ 32
    · refine iff_of_true (fun n => ?_) ⟨.inr hshort, .inl hlong⟩
      rw [accepts_iff hshort hlong]
      constructor
      · rintro ⟨p, ps, hps, rfl⟩
        exact ⟨p :: ps, hps, rfl⟩
      · rintro ⟨ps, hps, rfl⟩
        cases ps with
        | nil => exact absurd hps hempty
        | cons p ps => exact ⟨p, ps, hps, rfl⟩
    · constructor
      · rintro h
        refine ⟨.inr hshort, .inr ?_⟩
        rintro ⟨ps, hps⟩
        exact not_accepts (Nat.le_of_not_lt hlong) ((h ps.length).mpr ⟨ps, hps, rfl⟩)
      · rintro ⟨_, h⟩ n
        have hno := h.resolve_left hlong
        refine iff_of_false (not_accepts (Nat.le_of_not_lt hlong)) ?_
        rintro ⟨ps, hps, _⟩
        exact hno ⟨ps, hps⟩
  · refine iff_of_false (fun h => ?_) fun h => h.1.elim hempty hshort
    obtain ⟨ps, hps, hlen⟩ := (h 0).mp ((accepts_short (Nat.lt_of_not_le hshort)).mpr rfl)
    rw [List.length_eq_zero_iff.mp hlen] at hps
    exact hempty hps

end Ltfs.KeyList
