import Mathlib.Data.List.Basic
import Mathlib.Data.Int.Order.Basic
import Mathlib.Algebra.Order.Ring.Nat

namespace Ltfs.Lib.Decimal

/-- `isspace` of the C locale. -/
def isSpace (c : Char) : Bool :=
  c = ' ' || c = '\t' || c = '\n' || c = '\r' || c = '\x0b' || c = '\x0c'

/-- The digits of a number, with zeros in front up to a width. -/
def padded (width n : Nat) : List Char :=
  List.replicate (width - (Nat.toDigits 10 n).length) '0' ++ Nat.toDigits 10 n

/-- `%0*d` of `printf`. -/
def printInt (width : Nat) : Int → List Char
  | .ofNat n => padded width n
  | .negSucc n => '-' :: padded (width - 1) (n + 1)

/-- The digits that a text starts with, at most as many as the width allows. -/
def takeDigits : Nat → List Char → List Char × List Char
  | 0, cs => ([], cs)
  | _ + 1, [] => ([], [])
  | width + 1, c :: cs =>
    if c.isDigit then (c :: (takeDigits width cs).1, (takeDigits width cs).2) else ([], c :: cs)

def scanNat (width : Nat) (cs : List Char) : Option (Nat × List Char) :=
  match takeDigits width cs with
  | ([], _) => none
  | (d :: ds, rest) => some (Nat.ofDigitChars 10 (d :: ds) 0, rest)

/-- `%*d` of `scanf`: white space is skipped, and a sign counts as part of the field. -/
def scanInt (width : Nat) (cs : List Char) : Option (Int × List Char) :=
  match cs.dropWhile isSpace with
  | '-' :: cs => (scanNat (width - 1) cs).map (fun r => (-(r.1 : Int), r.2))
  | '+' :: cs => (scanNat (width - 1) cs).map (fun r => ((r.1 : Int), r.2))
  | cs => (scanNat width cs).map (fun r => ((r.1 : Int), r.2))

/-- A character of a `scanf` format that stands for itself. -/
def scanChar (c : Char) : List Char → Option (List Char)
  | [] => none
  | d :: cs => if d = c then some cs else none

variable {width n : Nat} {ds rest : List Char}

theorem isDigit_padded : ∀ c ∈ padded width n, c.isDigit = true := by
  intro c hc
  rcases List.mem_append.1 hc with hc | hc
  · rw [List.eq_of_mem_replicate hc]
    rfl
  · exact Nat.isDigit_of_mem_toDigits (by decide) (by decide) hc

theorem toDigits_inj {m n : Nat} : Nat.toDigits 10 m = Nat.toDigits 10 n ↔ m = n := by
  constructor
  · intro h
    rw [← Nat.ofDigitChars_ten_toDigits (n := m), h, Nat.ofDigitChars_ten_toDigits]
  · intro h
    rw [h]

/-- A number in front of an underscore can be told from the rest. -/
theorem toDigits_underscore {m n : Nat} {s t : List Char}
    (h : Nat.toDigits 10 m ++ '_' :: s = Nat.toDigits 10 n ++ '_' :: t) : m = n ∧ s = t := by
  have htake : ∀ (k : Nat) (u : List Char),
      (Nat.toDigits 10 k ++ '_' :: u).takeWhile Char.isDigit = Nat.toDigits 10 k := by
    intro k u
    rw [List.takeWhile_append_of_pos fun c hc => Nat.isDigit_of_mem_toDigits (by decide) (by decide) hc,
      List.takeWhile_cons_of_neg (by decide), List.append_nil]
  have hd := congrArg (List.takeWhile Char.isDigit) h
  rw [htake, htake] at hd
  rw [hd] at h
  exact ⟨toDigits_inj.mp hd, (List.cons.inj (List.append_cancel_left h)).2⟩

theorem length_padded (hpos : 0 < width) (h : n < 10 ^ width) : (padded width n).length = width := by
  have hle := (Nat.length_toDigits_le_iff (b := 10) (by decide) hpos).2 h
  rw [padded, List.length_append, List.length_replicate]
  omega

theorem ofDigitChars_padded : Nat.ofDigitChars 10 (padded width n) 0 = n := by
  rw [padded, Nat.ofDigitChars_append, Nat.ofDigitChars_replicate_zero, Nat.mul_zero, Nat.ofDigitChars_ten_toDigits]

/-- The field ends where its width does or where the digits do. -/
theorem takeDigits_append (hd : ∀ c ∈ ds, c.isDigit = true) (hw : ds.length ≤ width)
    (hend : ds.length = width ∨ ∀ c cs, rest = c :: cs → c.isDigit = false) :
    takeDigits width (ds ++ rest) = (ds, rest) := by
  induction ds generalizing width with
  | nil =>
    cases width with
    | zero => rfl
    | succ width =>
      cases rest with
      | nil => rfl
      | cons c cs =>
        have hc : c.isDigit = false := by
          rcases hend with h | h
          · cases h
          · exact h c cs rfl
        simp [takeDigits, hc]
  | cons d ds ih =>
    cases width with
    | zero => simp at hw
    | succ width =>
      rw [List.forall_mem_cons] at hd
      have hrest := ih hd.2 (by simpa using hw) (by simpa using hend)
      rw [List.cons_append, takeDigits, if_pos hd.1, hrest]

theorem isSpace_of_isDigit {c : Char} (h : c.isDigit = true) : isSpace c = false := by
  simp only [isSpace, Bool.or_eq_false_iff, decide_eq_false_iff_not]
  refine ⟨⟨⟨⟨⟨?_, ?_⟩, ?_⟩, ?_⟩, ?_⟩, ?_⟩ <;> (rintro rfl; revert h; decide)

theorem scanNat_digits (hne : ds ≠ []) (htake : takeDigits width (ds ++ rest) = (ds, rest)) :
    scanNat width (ds ++ rest) = some (Nat.ofDigitChars 10 ds 0, rest) := by
  cases ds with
  | nil => exact absurd rfl hne
  | cons d ds => rw [scanNat, htake]

theorem scanInt_digits (hne : ds ≠ []) (hd : ∀ c ∈ ds, c.isDigit = true) (hw : ds.length ≤ width)
    (hend : ds.length = width ∨ ∀ c cs, rest = c :: cs → c.isDigit = false) :
    scanInt width (ds ++ rest) = some ((Nat.ofDigitChars 10 ds 0 : Int), rest) := by
  have hscan := scanNat_digits hne (takeDigits_append hd hw hend)
  cases ds with
  | nil => exact absurd rfl hne
  | cons d ds =>
    have hdigit : d.isDigit = true := hd d List.mem_cons_self
    have hspace : (d :: ds ++ rest).dropWhile isSpace = d :: ds ++ rest := by
      simp [isSpace_of_isDigit hdigit]
    rw [scanInt, hspace]
    split
    · next heq =>
      obtain ⟨rfl, -⟩ := List.cons.inj heq
      cases hdigit
    · next heq =>
      obtain ⟨rfl, -⟩ := List.cons.inj heq
      cases hdigit
    · rw [hscan]
      rfl

/-- What is printed in a field is read from it, if the field is as wide as the number allows. -/
theorem scanInt_printInt (hpos : 0 < width) (h : n < 10 ^ width) :
    scanInt width (printInt width n ++ rest) = some ((n : Int), rest) := by
  have hlength := length_padded hpos h
  have hne : padded width n ≠ [] := List.ne_nil_of_length_pos (by omega)
  have hscan : scanInt width (padded width n ++ rest) = some ((Nat.ofDigitChars 10 (padded width n) 0 : Int), rest) :=
    scanInt_digits hne isDigit_padded (by omega) (.inl hlength)
  rwa [ofDigitChars_padded] at hscan

/-- A field without a width, of which the room for the text is a bound, ends at the next character that is no
digit. -/
theorem scanInt_printInt_wide {room : Nat} {c : Char} (hpos : 0 < width) (h : n < 10 ^ width) (hroom : width ≤ room)
    (hc : c.isDigit = false) :
    scanInt room (printInt width n ++ c :: rest) = some ((n : Int), c :: rest) := by
  have hlength := length_padded hpos h
  have hne : padded width n ≠ [] := List.ne_nil_of_length_pos (by omega)
  have hscan : scanInt room (padded width n ++ c :: rest) =
      some ((Nat.ofDigitChars 10 (padded width n) 0 : Int), c :: rest) :=
    scanInt_digits hne isDigit_padded (by omega) (.inr (fun c' cs' heq => (List.cons.inj heq).1 ▸ hc))
  rwa [ofDigitChars_padded] at hscan

@[simp] theorem scanChar_cons (c : Char) (cs : List Char) : scanChar c (c :: cs) = some cs :=
  if_pos rfl

end Ltfs.Lib.Decimal
