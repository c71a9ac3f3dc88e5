import Ltfs.Base64
import Ltfs.Lib.Base64

namespace Ltfs.Base64Spec

open Base64 Lib.Base64

variable {c : UInt8} {t x : List UInt8}

/-- The text without its whitespace. -/
def strip (t : List UInt8) : List UInt8 := t.filter fun c => !isWhite c

theorem base64Enc_eq : base64Enc = alphabet := rfl

theorem equalsSign_eq : equalsSign = pad := rfl

theorem base64Dec_digit {v : Nat} (h : v < 64) : base64Dec (digit v) = UInt8.ofNat v := by
  rw [base64Dec, base64Enc_eq, if_pos (digit_mem h), idxOf_digit h]

theorem base64Dec_mem (h : c ∈ alphabet) : ∃ v, v < 64 ∧ c = digit v := by
  have hidx : alphabet.idxOf c < alphabet.length := List.idxOf_lt_length_iff.2 h
  refine ⟨alphabet.idxOf c, by rwa [length_alphabet] at hidx, ?_⟩
  rw [digit, List.getD_eq_getElem?_getD, List.getElem?_eq_getElem hidx, Option.getD_some, List.getElem_idxOf]

theorem base64Dec_ne (h : base64Dec c ≠ 255) : c ∈ alphabet := by
  rw [base64Dec, base64Enc_eq] at h
  by_contra hno
  rw [if_neg hno] at h
  exact h rfl

theorem base64Dec_pad : base64Dec pad = 255 := by decide

theorem isWhite_of_mem (h : c ∈ alphabet) : isWhite c = false := by
  have hall : (alphabet.all fun c => !isWhite c) = true := by decide
  rw [← Bool.not_eq_true']
  exact List.all_eq_true.mp hall c h

section Bits

theorem toNat_small {n : Nat} (h : n < 256) : (UInt8.ofNat n).toNat = n := UInt8.toNat_ofNat_of_lt' h

/-- Bits put behind others -/
theorem join_bits {v w k : Nat} (hk : k < 8) (hw : w < 2 ^ k) (h : v * 2 ^ k + w < 256) :
    UInt8.ofNat v <<< UInt8.ofNat k ||| UInt8.ofNat w = UInt8.ofNat (v * 2 ^ k + w) := by
  have hpos : 0 < 2 ^ k := Nat.two_pow_pos k
  have hv : v < 256 := by
    have := Nat.le_mul_of_pos_right v hpos
    omega
  apply UInt8.toNat_inj.mp
  rw [UInt8.toNat_or, UInt8.toNat_shiftLeft, toNat_small hv, toNat_small (n := k) (by omega), toNat_small (n := w) (by omega),
    toNat_small h, Nat.mod_eq_of_lt hk, Nat.shiftLeft_eq, Nat.mod_eq_of_lt (by omega), ← Nat.shiftLeft_eq,
    ← Nat.shiftLeft_add_eq_or_of_lt hw, Nat.shiftLeft_eq]

theorem low_bits {v k m : Nat} (hv : v < 256) (hk : k < 9) (hm : m = 2 ^ k - 1) :
    UInt8.ofNat v &&& UInt8.ofNat m = UInt8.ofNat (v % 2 ^ k) := by
  subst hm
  have hle : 2 ^ k ≤ 2 ^ 8 := Nat.pow_le_pow_right (by decide) (by omega)
  have hmod := Nat.mod_le v (2 ^ k)
  apply UInt8.toNat_inj.mp
  rw [UInt8.toNat_and, toNat_small hv, toNat_small (by omega), toNat_small (by omega), Nat.and_two_pow_sub_one_eq_mod]

/-- Bits cut out of a word and moved to its end -/
theorem cut_bits {v k m l: Nat} (hv : v < 64) (hk : k < 8) (hm : m <<< k < 256) (hl : m = 2 ^ l - 1) (hs : 6 ≤ k + l) :
    (UInt8.ofNat v &&& UInt8.ofNat (m <<< k)) >>> UInt8.ofNat k = UInt8.ofNat (v / 2 ^ k) := by
  have hdiv := Nat.div_le_self v (2 ^ k)
  have hlt : v / 2 ^ k < 2 ^ l := by
    apply Nat.div_lt_of_lt_mul
    rw [← Nat.pow_add]
    exact Nat.lt_of_lt_of_le hv (Nat.pow_le_pow_right (by decide : 0 < 2) hs)
  apply UInt8.toNat_inj.mp
  rw [UInt8.toNat_shiftRight, UInt8.toNat_and, toNat_small (by omega), toNat_small hm, toNat_small (n := k) (by omega),
    toNat_small (by omega), Nat.mod_eq_of_lt hk, Nat.shiftRight_and_distrib, Nat.shiftLeft_shiftRight, hl,
    Nat.and_two_pow_sub_one_eq_mod, Nat.shiftRight_eq_div_pow, Nat.mod_eq_of_lt hlt]

theorem first_byte (v : Nat) (hv : v < 64) (w : Nat) (hw : w < 64) :
    UInt8.ofNat v <<< 2 ||| (UInt8.ofNat w &&& 0x30) >>> 4 = UInt8.ofNat (4 * v + w / 16) := by
  have hcut : (UInt8.ofNat w &&& 0x30) >>> 4 = UInt8.ofNat (w / 16) :=
    cut_bits (m := 3) (k := 4) (l := 2) hw (by decide) (by decide) rfl (by decide)
  rw [hcut, Nat.mul_comm]
  exact join_bits (k := 2) (by decide) (by omega) (by omega)

theorem second_byte (v : Nat) (hv : v < 64) (w : Nat) (hw : w < 64) :
    (UInt8.ofNat v &&& 0xF) <<< 4 ||| (UInt8.ofNat w &&& 0x3C) >>> 2 = UInt8.ofNat (v % 16 * 16 + w / 4) := by
  have hlow : UInt8.ofNat v &&& 0xF = UInt8.ofNat (v % 16) := low_bits (k := 4) (by omega) (by decide) rfl
  have hcut : (UInt8.ofNat w &&& 0x3C) >>> 2 = UInt8.ofNat (w / 4) :=
    cut_bits (m := 15) (k := 2) (l := 4) hw (by decide) (by decide) rfl (by decide)
  rw [hlow, hcut]
  exact join_bits (k := 4) (by decide) (by omega) (by omega)

theorem third_byte (v : Nat) (hv : v < 64) (w : Nat) (hw : w < 64) :
    (UInt8.ofNat v &&& 0x3) <<< 6 ||| UInt8.ofNat w = UInt8.ofNat (v % 4 * 64 + w) := by
  have hlow : UInt8.ofNat v &&& 0x3 = UInt8.ofNat (v % 4) := low_bits (k := 2) (by omega) (by decide) rfl
  rw [hlow]
  exact join_bits (k := 6) (by decide) (by omega) (by omega)

theorem digit_ne : ∀ v < 64, UInt8.ofNat v ≠ 255 := by decide

end Bits

/-- A character that the check lets pass anywhere. -/
def Plain (c : UInt8) : Prop := isWhite c = true ∨ c ∈ alphabet

instance : DecidablePred Plain := fun c => inferInstanceAs (Decidable (isWhite c = true ∨ c ∈ alphabet))

theorem Plain.ne_pad (h : Plain c) : c ≠ equalsSign := by
  rintro rfl
  obtain h | h := h
  · exact absurd h (by decide)
  · exact pad_notMem h

theorem checkLoop_cons (prev : Option UInt8) (c : UInt8) (rest : List UInt8) (nequal real : Nat) :
    checkLoop prev (c :: rest) nequal real =
      if c = equalsSign ∧ rest = [equalsSign] then checkLoop (some c) rest 2 real
      else if rest = [] ∧ c = equalsSign then
        match prev with
        | none => .error .outside
        | some p => checkLoop (some c) rest (if p ≠ equalsSign then 1 else nequal) real
      else if isWhite c then checkLoop (some c) rest nequal (real - 1)
      else if base64Dec c = 255 then .error .rejected
      else checkLoop (some c) rest nequal real :=
  checkLoop.eq_def ..

theorem checkLoop_plain {body tail : List UInt8} (h : ∀ c ∈ body, Plain c) (prev : Option UInt8) (nequal real : Nat) :
    checkLoop prev (body ++ tail) nequal real =
      checkLoop (body.getLast?.or prev) tail nequal (real - body.countP isWhite) := by
  induction body generalizing prev real with
  | nil => rfl
  | cons c body ih =>
    obtain ⟨hc, hbody⟩ := List.forall_mem_cons.1 h
    have hpad := hc.ne_pad
    have hlast : (c :: body).getLast?.or prev = body.getLast?.or (some c) := by
      cases body with
      | nil => rfl
      | cons d body => simp [List.getLast?_cons]
    rw [List.cons_append, checkLoop_cons, if_neg (fun hp => hpad hp.1), if_neg (fun hp => hpad hp.2), hlast]
    by_cases hwhite : isWhite c = true
    · rw [if_pos hwhite, ih hbody, List.countP_cons_of_pos hwhite, Nat.sub_sub, Nat.add_comm 1]
    · have hdigit := hc.resolve_left hwhite
      obtain ⟨v, hv, rfl⟩ := base64Dec_mem hdigit
      have hdec : ¬base64Dec (digit v) = 255 := by
        rw [base64Dec_digit hv]
        exact digit_ne v hv
      rw [if_neg hwhite, if_neg hdec, ih hbody, List.countP_cons_of_neg hwhite]

/-- The text up to the first character that is out of place, or the padding. -/
theorem exists_plain (t : List UInt8) :
    ∃ body tail, t = body ++ tail ∧ (∀ c ∈ body, Plain c) ∧ ∀ c ∈ tail.head?, ¬Plain c := by
  induction t with
  | nil => exact ⟨[], [], rfl, nofun, nofun⟩
  | cons c t ih =>
    by_cases hc : Plain c
    · obtain ⟨body, tail, rfl, hbody, htail⟩ := ih
      exact ⟨c :: body, tail, rfl, List.forall_mem_cons.2 ⟨hc, hbody⟩, htail⟩
    · refine ⟨[], c :: t, rfl, nofun, fun d hd => ?_⟩
      obtain rfl : c = d := by simpa using hd
      exact hc

/-- What is not padding at the end of the text is refused. -/
theorem checkLoop_refuses {c : UInt8} {rest : List UInt8} (hc : ¬Plain c)
    (hrest : c = equalsSign → rest ≠ [] ∧ rest ≠ [equalsSign]) (prev : Option UInt8) (nequal real : Nat) :
    checkLoop prev (c :: rest) nequal real = .error .rejected := by
  have hdec : base64Dec c = 255 := by
    by_contra hno
    exact hc (.inr (base64Dec_ne hno))
  rw [checkLoop_cons, if_neg (fun hp => (hrest hp.1).2 hp.2), if_neg (fun hp => (hrest hp.2).1 hp.1),
    if_neg (fun hw => hc (.inl hw)), if_pos hdec]

theorem checkLoop_pad {body : List UInt8} (hbody : ∀ c ∈ body, Plain c) (hnil : body ≠ []) (real : Nat) :
    checkLoop none (body ++ [pad]) 0 real = .ok (1, real - body.countP isWhite) := by
  have hlast : body.getLast hnil ≠ equalsSign := (hbody _ (List.getLast_mem hnil)).ne_pad
  rw [checkLoop_plain hbody, Option.or_none, List.getLast?_eq_some_getLast hnil, checkLoop_cons,
    if_neg (fun hp => nomatch hp.2), if_pos ⟨rfl, rfl⟩]
  dsimp only
  rw [if_pos hlast]
  rfl

/-- What the check finds: padding at the end of the text, or something out of place. -/
theorem checkLoop_cases (t : List UInt8) (real : Nat) :
    t = [equalsSign] ∧ checkLoop none t 0 real = .error .outside ∨
    (∃ body k, t = body ++ List.replicate k pad ∧ k ≤ 2 ∧ (∀ c ∈ body, Plain c) ∧ (k = 1 → body ≠ []) ∧
      checkLoop none t 0 real = .ok (k, real - body.countP isWhite)) ∨
    checkLoop none t 0 real = .error .rejected ∧ ∃ body c rest, t = body ++ c :: rest ∧ (∀ c ∈ body, Plain c) ∧
      ¬Plain c ∧ (c = equalsSign → rest ≠ [] ∧ rest ≠ [equalsSign]) := by
  obtain ⟨body, tail, rfl, hbody, htail⟩ := exists_plain t
  have hplain : checkLoop none (body ++ tail) 0 real = checkLoop body.getLast? tail 0 (real - body.countP isWhite) := by
    rw [checkLoop_plain hbody, Option.or_none]
  cases tail with
  | nil => exact .inr (.inl ⟨body, 0, rfl, by decide, hbody, nofun, hplain⟩)
  | cons c rest =>
    have hc : ¬Plain c := htail c rfl
    by_cases hout : c = equalsSign → rest ≠ [] ∧ rest ≠ [equalsSign]
    · exact .inr (.inr ⟨hplain.trans (checkLoop_refuses hc hout _ _ _), body, c, rest, rfl, hbody, hc, hout⟩)
    · rw [Classical.not_imp, not_and_or, not_not, not_not] at hout
      obtain ⟨rfl, rfl | rfl⟩ := hout
      · by_cases hnil : body = []
        · subst hnil
          exact .inl ⟨rfl, rfl⟩
        · exact .inr (.inl ⟨body, 1, rfl, by decide, hbody, fun _ => hnil, checkLoop_pad hbody hnil real⟩)
      · refine .inr (.inl ⟨body, 2, rfl, by decide, hbody, nofun, ?_⟩)
        rw [hplain, checkLoop_cons, if_pos ⟨rfl, rfl⟩, checkLoop_cons, if_neg (fun hp => nomatch hp.2),
          if_pos ⟨rfl, rfl⟩]
        rfl

theorem outputLoop_strip (quad t : List UInt8) : outputLoop quad t = outputLoop quad (strip t) := by
  induction t generalizing quad with
  | nil => rfl
  | cons c t ih =>
    by_cases hwhite : isWhite c = true
    · have hskip : strip (c :: t) = strip t := by
        rw [strip, List.filter_cons_of_neg (by simpa using hwhite)]
        rfl
      rw [hskip, ← ih, outputLoop, if_pos hwhite]
    · have hkeep : strip (c :: t) = c :: strip t := by
        rw [strip, List.filter_cons_of_pos (by simpa using hwhite)]
        rfl
      rw [hkeep, outputLoop, outputLoop, if_neg hwhite, if_neg hwhite]
      split
      · rw [ih]
      · rw [ih]

theorem outputLoop_four {a b c d : UInt8} {rest : List UInt8} (ha : isWhite a = false) (hb : isWhite b = false)
    (hc : isWhite c = false) (hd : isWhite d = false) : outputLoop [] (a :: b :: c :: d :: rest) =
      quadBytes (base64Dec a) (base64Dec b) (base64Dec c) (base64Dec d) ++ outputLoop [] rest := by
  simp [outputLoop, ha, hb, hc, hd]

theorem isWhite_digit {v : Nat} (h : v < 64) : isWhite (digit v) = false := isWhite_of_mem (digit_mem h)

theorem isWhite_pad : isWhite pad = false := by decide

theorem ofNat_toNat_div {a : UInt8} {n : Nat} (h : n = a.toNat) : UInt8.ofNat n = a := by
  rw [h, UInt8.ofNat_toNat]

theorem quadBytes_three (a b c : UInt8) :
    quadBytes (base64Dec (digit (a.toNat / 4))) (base64Dec (digit (a.toNat % 4 * 16 + b.toNat / 16)))
      (base64Dec (digit (b.toNat % 16 * 4 + c.toNat / 64))) (base64Dec (digit (c.toNat % 64))) = [a, b, c] := by
  have ha := a.toNat_lt
  have hb := b.toNat_lt
  have hc := c.toNat_lt
  have h₀ : a.toNat / 4 < 64 := by omega
  have h₁ : a.toNat % 4 * 16 + b.toNat / 16 < 64 := by omega
  have h₂ : b.toNat % 16 * 4 + c.toNat / 64 < 64 := by omega
  have h₃ : c.toNat % 64 < 64 := by omega
  rw [base64Dec_digit h₀, base64Dec_digit h₁, base64Dec_digit h₂, base64Dec_digit h₃, quadBytes,
    if_neg (digit_ne _ h₂), if_neg (digit_ne _ h₃), first_byte _ h₀ _ h₁, second_byte _ h₁ _ h₂, third_byte _ h₂ _ h₃,
    ofNat_toNat_div (a := a) (by omega), ofNat_toNat_div (a := b) (by omega), ofNat_toNat_div (a := c) (by omega)]

theorem quadBytes_two (a b : UInt8) :
    quadBytes (base64Dec (digit (a.toNat / 4))) (base64Dec (digit (a.toNat % 4 * 16 + b.toNat / 16)))
      (base64Dec (digit (b.toNat % 16 * 4))) (base64Dec pad) = [a, b] := by
  have ha := a.toNat_lt
  have hb := b.toNat_lt
  have h₀ : a.toNat / 4 < 64 := by omega
  have h₁ : a.toNat % 4 * 16 + b.toNat / 16 < 64 := by omega
  have h₂ : b.toNat % 16 * 4 < 64 := by omega
  rw [base64Dec_digit h₀, base64Dec_digit h₁, base64Dec_digit h₂, base64Dec_pad, quadBytes, if_neg (digit_ne _ h₂),
    if_pos rfl, first_byte _ h₀ _ h₁, second_byte _ h₁ _ h₂, ofNat_toNat_div (a := a) (by omega),
    ofNat_toNat_div (a := b) (by omega)]

theorem quadBytes_one (a : UInt8) :
    quadBytes (base64Dec (digit (a.toNat / 4))) (base64Dec (digit (a.toNat % 4 * 16))) (base64Dec pad)
      (base64Dec pad) = [a] := by
  have ha := a.toNat_lt
  have h₀ : a.toNat / 4 < 64 := by omega
  have h₁ : a.toNat % 4 * 16 < 64 := by omega
  rw [base64Dec_digit h₀, base64Dec_digit h₁, base64Dec_pad, quadBytes, if_pos rfl, first_byte _ h₀ _ h₁,
    ofNat_toNat_div (a := a) (by omega)]

/-- The output loop undoes the encoding. -/
theorem outputLoop_encode (x : List UInt8) : outputLoop [] (encode x) = x := by
  induction x using encode.induct with
  | case1 => rfl
  | case2 a =>
    have ha := a.toNat_lt
    rw [encode, outputLoop_four (isWhite_digit (by omega)) (isWhite_digit (by omega)) isWhite_pad isWhite_pad,
      quadBytes_one]
    rfl
  | case3 a b =>
    have ha := a.toNat_lt
    have hb := b.toNat_lt
    rw [encode, outputLoop_four (isWhite_digit (by omega)) (isWhite_digit (by omega)) (isWhite_digit (by omega))
      isWhite_pad, quadBytes_two]
    rfl
  | case4 a b c rest ih =>
    have ha := a.toNat_lt
    have hb := b.toNat_lt
    have hc := c.toNat_lt
    rw [encode, outputLoop_four (isWhite_digit (by omega)) (isWhite_digit (by omega)) (isWhite_digit (by omega))
      (isWhite_digit (by omega)), quadBytes_three, ih]
    rfl

/-- Whitespace follows a sign for padding. -/
def SpaceAfterPad (t : List UInt8) : Prop := ∃ c ∈ t.dropWhile (· ≠ equalsSign), isWhite c = true

/-- What the decoder is for: every text of some bytes gives these bytes, every other text is refused, and nothing
but the text is read. -/
structure Right (t : List UInt8) : Prop where
  decodes : ∀ x, x ≠ [] → strip t = encode x → base64Decode t = .ok (x.length, x)
  refuses : ¬IsBase64 (strip t) → base64Decode t = .error .rejected
  inside : base64Decode t ≠ .error .outside

theorem dropWhile_plain {body tail : List UInt8} (h : ∀ c ∈ body, Plain c) (htail : ∀ c ∈ tail.head?, c = equalsSign) :
    (body ++ tail).dropWhile (· ≠ equalsSign) = tail := by
  rw [List.dropWhile_append_of_pos (fun c hc => by simpa using (h c hc).ne_pad)]
  cases tail with
  | nil => rfl
  | cons c tail => rw [List.dropWhile_cons_of_neg (by simpa using htail c rfl)]

theorem head_replicate {k : Nat} : ∀ c ∈ (List.replicate k pad).head?, c = pad := by
  cases k <;> simp [List.replicate_succ]

theorem strip_append (a b : List UInt8) : strip (a ++ b) = strip a ++ strip b := List.filter_append ..

theorem strip_replicate (k : Nat) : strip (List.replicate k pad) = List.replicate k pad := by
  rw [strip, List.filter_replicate]
  rfl

theorem strip_plain {body : List UInt8} (h : ∀ c ∈ body, Plain c) : ∀ c ∈ strip body, c ∈ alphabet := by
  intro c hc
  obtain ⟨hmem, hwhite⟩ := List.mem_filter.1 hc
  exact (h c hmem).resolve_left (by simpa using hwhite)

theorem length_strip (body : List UInt8) : body.length - body.countP isWhite = (strip body).length := by
  have hsum := List.length_eq_countP_add_countP isWhite (l := body)
  have hstrip : (strip body).length = body.countP fun c => !isWhite c := (List.countP_eq_length_filter ..).symm
  have hnot : (body.countP fun c => decide ¬isWhite c = true) = body.countP fun c => !isWhite c := by
    congr 1
    funext c
    simp
  omega

/-- A text that passes the check. -/
theorem decode_checked {body : List UInt8} {k : Nat} (ht : t = body ++ List.replicate k pad) (hne : t ≠ [])
    (hcheck : checkLoop none t 0 t.length = .ok (k, t.length - body.countP isWhite)) :
    base64Decode t = if ((strip body).length + k) % 4 ≠ 0 then .error .rejected
      else if 3 * (((strip body).length + k) / 4) - k = 0 then .error .rejected
      else .ok (3 * (((strip body).length + k) / 4) - k, outputLoop [] (strip t)) := by
  have hlen : t.length - body.countP isWhite = (strip body).length + k := by
    have hle := List.countP_le_length (p := isWhite) (l := body)
    rw [← length_strip, ht, List.length_append, List.length_replicate]
    omega
  rw [base64Decode, if_neg hne, hcheck, hlen, outputLoop_strip]

theorem isBase64_nil : ¬IsBase64 [] := nofun

theorem decode_accepts {r : Nat × List UInt8} (h : base64Decode t = .ok r) : IsBase64 (strip t) := by
  by_cases hne : t = []
  · rw [base64Decode, if_pos hne] at h
    cases h
  obtain ⟨-, hout⟩ | ⟨body, k, ht, hk, hbody, -, hcheck⟩ | ⟨hrefused, -⟩ := checkLoop_cases t t.length
  · rw [base64Decode, if_neg hne, hout] at h
    cases h
  · rw [decode_checked ht hne hcheck] at h
    split_ifs at h with hmod hnone
    have hstrip : strip body ≠ [] := by
      intro hnil
      rw [hnil, List.length_nil] at hmod hnone
      omega
    rw [ht, strip_append, strip_replicate]
    exact isBase64_of_digits hk hstrip (strip_plain hbody) (not_not.1 hmod)
  · rw [base64Decode, if_neg hne, hrefused] at h
    cases h

theorem decode_outside : base64Decode t = .error .outside ↔ t = [equalsSign] := by
  constructor
  · intro h
    by_cases hne : t = []
    · rw [base64Decode, if_pos hne] at h
      cases h
    obtain ⟨ht, -⟩ | ⟨body, k, ht, -, -, -, hcheck⟩ | ⟨hrefused, -⟩ := checkLoop_cases t t.length
    · exact ht
    · rw [decode_checked ht hne hcheck] at h
      split_ifs at h <;> cases h
    · rw [base64Decode, if_neg hne, hrefused] at h
      cases h
  · rintro rfl
    rfl

theorem decode_encoded (hx : x ≠ []) (ht : strip t = encode x) (hspace : ¬SpaceAfterPad t) :
    base64Decode t = .ok (x.length, x) := by
  obtain ⟨ds, k, hshape, hk, hds, hmem, hmod, hlen⟩ := encode_shape hx
  have hne : t ≠ [] := by
    rintro rfl
    rw [hshape] at ht
    exact hds (List.append_eq_nil_iff.1 ht.symm).1
  have hpos := List.length_pos_iff.2 hx
  have hdigits : ∀ {body tail : List UInt8}, (∀ c ∈ body, Plain c) → t = body ++ tail → (∀ c ∈ tail.head?, c = pad) →
      strip body = ds ∧ strip tail = List.replicate k pad := by
    intro body tail hbody hsplit htail
    rw [hsplit, strip_append, hshape] at ht
    refine digits_unique (strip_plain hbody) hmem ?_ head_replicate ht
    cases tail with
    | nil => exact nofun
    | cons c tail =>
      obtain rfl : c = pad := htail c rfl
      exact fun d hd => (Option.some.inj hd).symm
  obtain ⟨hout, -⟩ | ⟨body, n, hsplit, hn, hbody, -, hcheck⟩ | ⟨-, body, c, rest, hsplit, hbody, hc, hrest⟩ :=
    checkLoop_cases t t.length
  · obtain ⟨hnil, -⟩ := @hdigits [] t nofun rfl (by rw [hout]; exact fun d hd => (Option.some.inj hd).symm)
    exact absurd hnil.symm hds
  · obtain ⟨hbodyds, hpad⟩ := hdigits hbody hsplit head_replicate
    rw [strip_replicate] at hpad
    obtain rfl : n = k := by
      simpa using congrArg List.length hpad
    rw [decode_checked hsplit hne hcheck, hbodyds, if_neg (not_not.2 hmod), hlen, Nat.add_sub_cancel,
      if_neg (Nat.ne_of_gt hpos), ht, outputLoop_encode]
  · have hwhite : isWhite c = false := by
      simpa using fun hw => hc (.inl hw)
    have hin : c ∈ ds ++ List.replicate k pad := by
      rw [← hshape, ← ht, strip, List.mem_filter, hsplit]
      simp [hwhite]
    have hpad : c = pad := by
      obtain hin | hin := List.mem_append.1 hin
      · exact absurd (.inr (hmem c hin)) hc
      · exact List.eq_of_mem_replicate hin
    subst hpad
    obtain ⟨-, htail⟩ := hdigits hbody hsplit fun d hd => (Option.some.inj hd).symm
    have hclean : ∀ d ∈ rest, isWhite d = false := by
      intro d hd
      by_contra hw
      refine hspace ⟨d, ?_, by simpa using hw⟩
      have hcut : t.dropWhile (· ≠ equalsSign) = pad :: rest := by
        rw [hsplit]
        exact dropWhile_plain hbody fun e he => (Option.some.inj he).symm
      rw [hcut]
      exact List.mem_cons_of_mem _ hd
    have hsame : strip (pad :: rest) = pad :: rest := by
      refine List.filter_eq_self.2 (List.forall_mem_cons.2 ⟨rfl, fun d hd => ?_⟩)
      rw [hclean d hd]
      rfl
    rw [hsame] at htail
    obtain ⟨hne₀, hne₁⟩ := hrest rfl
    obtain rfl | rfl | rfl : k = 0 ∨ k = 1 ∨ k = 2 := by omega
    · cases htail
    · exact absurd (List.cons.inj htail).2 hne₀
    · exact absurd (List.cons.inj htail).2 hne₁

/-- A text with whitespace behind the padding does not pass. -/
theorem decode_spaced (hspace : SpaceAfterPad t) : base64Decode t = .error .rejected := by
  by_cases hne : t = []
  · rw [base64Decode, if_pos hne]
  obtain ⟨rfl, -⟩ | ⟨body, k, ht, -, hbody, -, -⟩ | ⟨hrefused, -⟩ := checkLoop_cases t t.length
  · obtain ⟨c, hc, hwhite⟩ := hspace
    obtain rfl : c = equalsSign := List.mem_singleton.1 ((List.dropWhile_sublist _).subset hc)
    exact absurd hwhite (by decide)
  · obtain ⟨c, hc, hwhite⟩ := hspace
    rw [ht, dropWhile_plain hbody head_replicate] at hc
    rw [List.eq_of_mem_replicate hc, isWhite_pad] at hwhite
    cases hwhite
  · rw [base64Decode, if_neg hne, hrefused]

/-- The decoder does what it is for, but for a text that is a sign for padding and nothing else, and for encoded
bytes with whitespace behind the padding. -/
theorem decoder_right_iff (t : List UInt8) :
    Right t ↔ t ≠ [equalsSign] ∧ ((∃ x, x ≠ [] ∧ strip t = encode x) → ¬SpaceAfterPad t) := by
  constructor
  · refine fun h => ⟨fun ht => h.inside (decode_outside.2 ht), ?_⟩
    rintro ⟨x, hx, ht⟩ hspace
    have hgood := h.decodes x hx ht
    rw [decode_spaced hspace] at hgood
    cases hgood
  · rintro ⟨hne, hspace⟩
    have hinside : base64Decode t ≠ .error .outside := fun h => hne (decode_outside.1 h)
    refine ⟨fun x hx ht => decode_encoded hx ht (hspace ⟨x, hx, ht⟩), fun hno => ?_, hinside⟩
    cases hres : base64Decode t with
    | ok r => exact absurd (decode_accepts hres) hno
    | error e =>
      cases e with
      | rejected => rfl
      | outside => exact absurd hres hinside

/-- The encoding of one byte, with a newline behind it. -/
def newlineAfterPad : List UInt8 := [81, 81, 61, 61, 10]

theorem newlineAfterPad_wrong : ¬Right newlineAfterPad := by
  intro h
  have hgood := h.decodes [65] (by simp) (by decide)
  have hbad : base64Decode newlineAfterPad = .error .rejected := by decide
  rw [hbad] at hgood
  cases hgood

end Ltfs.Base64Spec
