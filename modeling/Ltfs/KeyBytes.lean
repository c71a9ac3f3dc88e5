import Ltfs.KeyList

namespace Ltfs.KeyBytes

open Base64 Base64Spec KeyFormat KeyList Lib.Base64 Split

variable {s t ds : Str} {p q : Pair} {n : Nat}

/-- Four digits are the encoding of three bytes. -/
theorem exists_three {v₀ v₁ v₂ v₃ : Nat} (h₀ : v₀ < 64) (h₁ : v₁ < 64) (h₂ : v₂ < 64) (h₃ : v₃ < 64) :
    ∃ a b c : UInt8, v₀ = a.toNat / 4 ∧ v₁ = a.toNat % 4 * 16 + b.toNat / 16 ∧
      v₂ = b.toNat % 16 * 4 + c.toNat / 64 ∧ v₃ = c.toNat % 64 := by
  refine ⟨UInt8.ofNat (v₀ * 4 + v₁ / 16), UInt8.ofNat (v₁ % 16 * 16 + v₂ / 4), UInt8.ofNat (v₂ % 4 * 64 + v₃), ?_⟩
  rw [toNat_small (by omega), toNat_small (by omega), toNat_small (by omega)]
  omega

/-- Three digits give two bytes, whatever the two bits that are left. -/
theorem exists_two {v₀ v₁ v₂ : Nat} (h₀ : v₀ < 64) (h₁ : v₁ < 64) (h₂ : v₂ < 64) :
    ∃ a b : UInt8, v₀ = a.toNat / 4 ∧ v₁ = a.toNat % 4 * 16 + b.toNat / 16 ∧ v₂ / 4 * 4 = b.toNat % 16 * 4 := by
  refine ⟨UInt8.ofNat (v₀ * 4 + v₁ / 16), UInt8.ofNat (v₁ % 16 * 16 + v₂ / 4), ?_⟩
  rw [toNat_small (by omega), toNat_small (by omega)]
  omega

/-- Whole groups of digits are the encoding of some bytes, which the decoder writes for them. -/
theorem exists_groups (hlen : ds.length = 4 * n) (hmem : ∀ c ∈ ds, c ∈ alphabet) :
    ∃ x : Str, x.length = 3 * n ∧ (∀ y, encode (x ++ y) = ds ++ encode y) ∧
      ∀ t, outputLoop [] (ds ++ t) = x ++ outputLoop [] t := by
  induction n generalizing ds with
  | zero =>
    obtain rfl := List.length_eq_zero_iff.mp hlen
    exact ⟨[], rfl, fun _ => rfl, fun _ => rfl⟩
  | succ n ih =>
    obtain ⟨c₀, c₁, c₂, c₃, rest, rfl⟩ : ∃ c₀ c₁ c₂ c₃ rest, ds = c₀ :: c₁ :: c₂ :: c₃ :: rest := by
      match ds, hlen with
      | c₀ :: c₁ :: c₂ :: c₃ :: rest, _ => exact ⟨c₀, c₁, c₂, c₃, rest, rfl⟩
    obtain ⟨x, hx, hencode, hout⟩ := ih (by simpa [Nat.mul_succ] using hlen) fun c hc => hmem c (by simp [hc])
    obtain ⟨v₀, h₀, rfl⟩ := base64Dec_mem (hmem c₀ (by simp))
    obtain ⟨v₁, h₁, rfl⟩ := base64Dec_mem (hmem c₁ (by simp))
    obtain ⟨v₂, h₂, rfl⟩ := base64Dec_mem (hmem c₂ (by simp))
    obtain ⟨v₃, h₃, rfl⟩ := base64Dec_mem (hmem c₃ (by simp))
    obtain ⟨a, b, c, rfl, rfl, rfl, rfl⟩ := exists_three h₀ h₁ h₂ h₃
    refine ⟨a :: b :: c :: x, by simp only [List.length_cons]; omega, fun y => ?_, fun t => ?_⟩
    · simp only [List.cons_append]
      rw [encode, hencode]
    · simp only [List.cons_append]
      rw [outputLoop_four (isWhite_digit h₀) (isWhite_digit h₁) (isWhite_digit h₂) (isWhite_digit h₃), quadBytes_three,
        hout]
      rfl

theorem outputLoop_tail {a b : UInt8} {v : Nat} (hv : v < 64) (hb : v / 4 * 4 = b.toNat % 16 * 4) :
    outputLoop [] [digit (a.toNat / 4), digit (a.toNat % 4 * 16 + b.toNat / 16), digit v, pad] = [a, b] := by
  have ha' := a.toNat_lt
  have hb' := b.toNat_lt
  have h₀ : a.toNat / 4 < 64 := by omega
  have h₁ : a.toNat % 4 * 16 + b.toNat / 16 < 64 := by omega
  rw [outputLoop_four (isWhite_digit h₀) (isWhite_digit h₁) (isWhite_digit hv) isWhite_pad, base64Dec_digit h₀,
    base64Dec_digit h₁, base64Dec_digit hv, base64Dec_pad, quadBytes, if_neg (digit_ne _ hv), if_pos rfl,
    first_byte _ h₀ _ h₁, second_byte _ h₁ _ hv, @ofNat_toNat_div a _ (by omega), @ofNat_toNat_div b _ (by omega)]
  rfl

/-- The text of a key -/
def keyText (p : Pair) : Str := p.digits ++ [pad]

theorem hasKey_outputLoop (p : Pair) : p.HasKey (outputLoop [] (keyText p)) := by
  obtain ⟨ds, c₀, c₁, c₂, hdigits⟩ : ∃ ds c₀ c₁ c₂, p.digits = ds ++ [c₀, c₁, c₂] := by
    refine ⟨p.digits.take 40, ?_⟩
    have hlen : (p.digits.drop 40).length = 3 := by simp [p.length_digits]
    match hdrop : p.digits.drop 40, hlen with
    | [c₀, c₁, c₂], _ => exact ⟨c₀, c₁, c₂, by rw [← hdrop, List.take_append_drop]⟩
  have hmem := p.digits_mem
  have hlen := p.length_digits
  rw [hdigits] at hmem hlen
  obtain ⟨v₀, h₀, rfl⟩ := base64Dec_mem (hmem c₀ (by simp))
  obtain ⟨v₁, h₁, rfl⟩ := base64Dec_mem (hmem c₁ (by simp))
  obtain ⟨v, hv, rfl⟩ := base64Dec_mem (hmem c₂ (by simp))
  obtain ⟨a, b, rfl, rfl, hb⟩ := exists_two h₀ h₁ hv
  have hten : ds.length = 4 * 10 := by simpa using hlen
  obtain ⟨x, hx, hencode, hout⟩ := exists_groups hten fun c hc => hmem c (List.mem_append_left _ hc)
  have hdecoded : outputLoop [] (keyText p) = x ++ [a, b] := by
    rw [keyText, hdigits, List.append_assoc, hout]
    exact congrArg (x ++ ·) (outputLoop_tail hv hb)
  rw [hdecoded]
  refine ⟨by simp [hx], ds ++ [digit (a.toNat / 4), digit (a.toNat % 4 * 16 + b.toNat / 16)], v, hv, ?_, ?_⟩
  · rw [hdigits, List.append_assoc]
    rfl
  · rw [hencode, hb, List.append_assoc]
    rfl

theorem decode_keyText (p : Pair) : base64Decode (keyText p) = .ok (32, outputLoop [] (keyText p)) := by
  have hplain : ∀ c ∈ p.digits, Plain c := fun c hc => .inr (p.digits_mem c hc)
  have hwhite : ∀ c ∈ p.digits, isWhite c = false := fun c hc => isWhite_of_mem (p.digits_mem c hc)
  have hne : p.digits ≠ [] := by
    intro hnil
    have hlen := p.length_digits
    rw [hnil] at hlen
    cases hlen
  have hstrip : strip p.digits = p.digits := List.filter_eq_self.mpr fun c hc => by rw [hwhite c hc]; rfl
  have hchecked := decode_checked (t := keyText p) (k := 1) rfl (by simp [keyText])
    ((checkLoop_pad hplain hne _).trans rfl)
  rw [hchecked, ← outputLoop_strip, hstrip, p.length_digits]
  rfl

/-- The key of a pair, or zeros without memory for it -/
def keyOr (memory : Bool) (p : Pair) : Str :=
  if memory then outputLoop [] (keyText p) else List.replicate 32 0

@[simp] theorem keyOr_true (p : Pair) : keyOr true p = outputLoop [] (keyText p) := rfl

@[simp] theorem keyOr_false (p : Pair) : keyOr false p = List.replicate 32 0 := rfl

theorem convertKey_text (memory : Bool) (p : Pair) : convertKey memory (keyText p) = keyOr memory p := by
  obtain ⟨hlen, _⟩ := hasKey_outputLoop p
  rw [convertKey, decode_keyText, keyOr]
  cases memory with
  | false => rfl
  | true =>
    have htake : (outputLoop [] (keyText p)).take dkLength = outputLoop [] (keyText p) :=
      List.take_of_length_le (Nat.le_of_eq hlen)
    exact (if_pos ⟨rfl, rfl⟩).trans htake

theorem xdigit_plain (c : UInt8) (h : isXdigit c = true) :
    isSpace c = false ∧ c ≠ 45 ∧ c ≠ plus ∧ c ≠ 120 ∧ c ≠ 88 := by
  have hall : ∀ n < 256, isXdigit (UInt8.ofNat n) = true → isSpace (UInt8.ofNat n) = false ∧ UInt8.ofNat n ≠ 45 ∧
      UInt8.ofNat n ≠ plus ∧ UInt8.ofNat n ≠ 120 ∧ UInt8.ofNat n ≠ 88 := by decide +kernel
  have hc := hall c.toNat c.toNat_lt
  rw [UInt8.ofNat_toNat] at hc
  exact hc h

/-- Two hexadecimal digits have neither a sign nor a `0x` before them. -/
theorem strtoul16_two {a b : UInt8} (ha : isXdigit a = true) (hb : isXdigit b = true) :
    strtoul16 [a, b] = hexDigitValue a * 16 + hexDigitValue b := by
  obtain ⟨hspace, hminus, hplus, -, -⟩ := xdigit_plain a ha
  obtain ⟨-, -, -, hx, hX⟩ := xdigit_plain b hb
  simp [strtoul16, hspace, hminus, hplus, hx, hX, ha, hb]

theorem length_bytesOfHex {h : Str} (hlen : h.length = 2 * n) : (Pair.bytesOfHex h).length = n := by
  induction n generalizing h with
  | zero =>
    obtain rfl := List.length_eq_zero_iff.mp hlen
    rfl
  | succ n ih =>
    match h, hlen with
    | a :: b :: h, hlen =>
      rw [Pair.bytesOfHex, List.length_cons, ih (by simpa [Nat.mul_succ] using hlen)]

theorem bytesOfHex_eq {h : Str} (hlen : h.length = 2 * n) (hx : ∀ c ∈ h, isXdigit c = true) (front rest : Str) :
    (List.range n).map (fun i => UInt8.ofNat (strtoul16 (slice (front ++ (h ++ rest)) (front.length + i * 2) 2))) =
      Pair.bytesOfHex h := by
  induction n generalizing h front with
  | zero =>
    obtain rfl := List.length_eq_zero_iff.mp hlen
    rfl
  | succ n ih =>
    match h, hlen with
    | a :: b :: h, hlen =>
      have htwo := slice_append front [a, b] (h ++ rest)
      have hrest := ih (h := h) (by simpa [Nat.mul_succ] using hlen) (fun c hc => hx c (by simp [hc])) (front ++ [a, b])
      have hlen₂ : (front ++ [a, b]).length = front.length + 2 := by simp
      rw [List.append_assoc, hlen₂] at hrest
      rw [List.range_succ_eq_map, List.map_cons, List.map_map, Pair.bytesOfHex]
      congr 1
      · have hslice : slice (front ++ (a :: b :: h ++ rest)) (front.length + 0 * 2) 2 = [a, b] := by
          simpa using htwo
        rw [hslice, strtoul16_two (hx a (by simp)) (hx b (by simp))]
      · rw [← hrest]
        apply List.map_congr_left
        intro i _
        have hi : front.length + (i + 1) * 2 = front.length + 2 + i * 2 := by omega
        simp only [Function.comp_apply, Nat.succ_eq_add_one, hi]
        rfl

theorem convertKeyalias_text (p : Pair) (rest : Str) : convertKeyalias (p.ascii ++ (p.hex ++ rest)) = p.keyAlias := by
  have hascii := slice_append [] p.ascii (p.hex ++ rest)
  have hhex := bytesOfHex_eq (n := 9) p.length_hex p.hex_xdigit p.ascii rest
  rw [p.length_ascii] at hhex hascii
  rw [convertKeyalias, Pair.keyAlias]
  exact congrArg₂ (· ++ ·) hascii hhex

/-- The entries that a list of pairs should give -/
def entries (decodes : Nat → Bool) : Nat → List Pair → List Key
  | _, [] => []
  | i, p :: ps => ⟨keyOr (decodes i) p, p.keyAlias⟩ :: entries decodes (i + 1) ps

variable {decodes : Nat → Bool} {ps : List Pair} {i offset : Nat}

theorem slice_drop (s : Str) (i j n : Nat) : slice s (i + j) n = slice (s.drop i) j n := by
  rw [slice, slice]
  apply List.map_congr_left
  intro k _
  rw [byteAt, byteAt]
  simp [Nat.add_assoc]

theorem readKeys_entries (hs : s.length < 2 ^ 32) (hps : s.drop offset = listText ps) :
    readKeys decodes s ps.length i offset = entries decodes i ps := by
  induction ps generalizing i offset with
  | nil => rfl
  | cons p ps ih =>
    have hlong := length_listText p ps
    rw [← hps, List.length_drop] at hlong
    have hkeytext : slice s offset keyLength = keyText p := by
      have h := slice_append [] (keyText p) (colon :: (p.ascii ++ p.hex) ++ behind slash (ps.map Pair.text))
      have hlen : (keyText p).length = keyLength := by simp [keyText, p.length_digits, keyLength, dkLength]
      rw [hlen] at h
      have hdrop := slice_drop s offset 0 keyLength
      rw [Nat.add_zero, hps, listText, Pair.text] at hdrop
      rw [hdrop, ← h]
      simp [keyText]
    have hfirst : wrap (offset + (keyLength + 1)) = offset + 45 :=
      wrap_eq (by have : keyLength = 44 := rfl; omega)
    have halias : s.drop (offset + 45) = p.ascii ++ (p.hex ++ behind slash (ps.map Pair.text)) := by
      have hlen : (keyText p ++ [colon]).length = 45 := by simp [keyText, p.length_digits]
      have htext : listText (p :: ps) =
          keyText p ++ [colon] ++ (p.ascii ++ (p.hex ++ behind slash (ps.map Pair.text))) := by
        simp [listText, Pair.text, keyText]
      rw [← List.drop_drop, hps, htext, ← hlen, List.drop_left]
    rw [List.length_cons, readKeys, entries]
    simp only [hkeytext, hfirst, halias, convertKey_text, convertKeyalias_text]
    refine congrArg _ ?_
    cases ps with
    | nil => rfl
    | cons q ps =>
      have hrest : s.drop (offset + 66) = slash :: listText (q :: ps) := by
        have htext : listText (p :: q :: ps) = p.text ++ slash :: listText (q :: ps) := by
          rw [listText, List.map_cons, behind_cons, listText]
        rw [← List.drop_drop, hps, htext, ← length_text p, List.drop_left]
      have hnext : s.drop (offset + 67) = listText (q :: ps) := by
        rw [← List.drop_drop (i := 1), hrest]
        rfl
      have hlen := congrArg List.length hrest
      rw [List.length_drop, List.length_cons] at hlen
      have hsecond : wrap (offset + 45 + (keyaliasLength + 1)) = offset + 67 :=
        wrap_eq (by have : keyaliasLength = 21 := rfl; omega)
      rw [hsecond]
      exact ih hnext

end Ltfs.KeyBytes
