import Mathlib.Data.List.TakeWhile
import Ltfs.Criteria

namespace Ltfs.CriteriaSize

open Criteria

/-- The value of an option: its text behind the sign '=' -/
def optionValue (str : Str) : Str := (optionText str).drop 5

def suffixMultiplier : Str → Option Nat
  | [] => some 1
  | [c] => unitMultiplier c
  | _ => none

/-- Digits with at most one unit behind them, whose product is a number of 64 bits -/
def IsSize (v : Str) (n : Nat) : Prop :=
  ∃ ds suffix m, v = ds ++ suffix ∧ ds ≠ [] ∧ (∀ c ∈ ds, isdigit c) ∧ suffixMultiplier suffix = some m ∧
    n = digitsValue ds * m ∧ n < 2 ^ 64

/-- `index_criteria_parse_size` of the option at the start of `str` -/
def parseSize (str : Str) : Except Fault Nat := indexCriteriaParseSize str ((optionText str).length + 1)

/-- The sizes are accepted and stored, everything else is rejected, and nothing but the option is read. -/
structure Right (str : Str) : Prop where
  accepts : ∀ n, IsSize (optionValue str) n → parseSize str = .ok n
  rejects : (∀ n, ¬IsSize (optionValue str) n) → parseSize str = .error .policyInvalid

/-- The texts that the checks refuse: two letters side by side, a letter at the end that is no unit, no digit at the
start. -/
inductive Refused (v : Str) : Prop where
  | letters (h : adjacentAlpha v)
  | unit (c : UInt8) (hlast : v.getLast? = some c) (halpha : isalpha c) (hunit : unitMultiplier c = none)
  | digit (c : UInt8) (hhead : v.head? = some c) (hdigit : ¬isdigit c)

/-- The text without the letter at its end -/
def number (v : Str) : Str := if (v.getLast?.any isalpha) then v.dropLast else v

def multiplier (v : Str) : Nat := if (v.getLast?.any isalpha) then (v.getLast?.bind unitMultiplier).getD 1 else 1

variable {v ds : Str} {c : UInt8} {n m : Nat}

theorem isalpha_of_isdigit (h : isdigit c) : isalpha c = false := by
  simp only [isdigit, isalpha, Bool.and_eq_true, decide_eq_true_eq, Bool.or_eq_false_iff, Bool.and_eq_false_iff,
    decide_eq_false_iff_not, UInt8.le_iff_toNat_le] at h ⊢
  simp at h ⊢
  omega

theorem isalpha_of_unit (h : unitMultiplier c = some m) : isalpha c := by
  rw [unitMultiplier] at h
  split_ifs at h with hk hm hg
  · rcases hk with rfl | rfl <;> decide
  · rcases hm with rfl | rfl <;> decide
  · rcases hg with rfl | rfl <;> decide

theorem unit_pos (h : unitMultiplier c = some m) : 0 < m := by
  rw [unitMultiplier] at h
  split_ifs at h <;> · cases h; omega

theorem adjacentAlpha_digits (hds : ∀ d ∈ ds, isdigit d) (tail : Str) (htail : tail.length ≤ 1) :
    adjacentAlpha (ds ++ tail) = false := by
  induction ds with
  | nil =>
    match tail, htail with
    | [], _ => rfl
    | [_], _ => rfl
  | cons d ds ih =>
    have hd := isalpha_of_isdigit (hds d List.mem_cons_self)
    have ih := ih fun e he => hds e (List.mem_cons_of_mem d he)
    rw [List.cons_append]
    cases hrest : ds ++ tail with
    | nil => rfl
    | cons e rest =>
      rw [hrest] at ih
      rw [adjacentAlpha, hd, ih]
      rfl

theorem parseSize_eq (str : Str) : parseSize str = parseSizeRule (optionValue str) := by
  have htake : optionText str = str.take (optionText str).length :=
    List.prefix_iff_eq_take.1 (List.takeWhile_prefix _)
  have hlen : Opt.size.text.length = 5 := rfl
  have hshort := congrArg List.length htake
  rw [List.length_take] at hshort
  rw [parseSize, indexCriteriaParseSize, optionValue, htake, List.drop_take, List.length_take, hlen]
  congr 2
  omega

theorem parseSize_empty {str : Str} (h : optionValue str = []) : parseSize str = .error .outside := by
  rw [parseSize_eq, h]
  rfl

theorem sizeValue_refused (h : ∀ c, v.head? = some c → ¬isdigit c) : sizeValue v m = .error .policyInvalid := by
  cases v with
  | nil => rfl
  | cons c rest => rw [sizeValue, if_pos (by simpa using h c rfl)]

theorem sizeValue_digit (hhead : v.head? = some c) (hdigit : isdigit c) :
    sizeValue v m = .ok (strtoull v * m % 2 ^ 64) := by
  cases v with
  | nil => cases hhead
  | cons d rest =>
    cases hhead
    rw [sizeValue, if_neg (by simpa using hdigit)]

theorem head_dropLast {d : UInt8} (h : v.dropLast.head? = some d) : v.head? = some d := by
  match v, h with
  | _ :: _ :: _, h => exact h

theorem parseSize_refused {str : Str} (hne : optionValue str ≠ []) (h : Refused (optionValue str)) :
    parseSize str = .error .policyInvalid := by
  rw [parseSize_eq, parseSizeRule]
  split_ifs with hadj
  · rfl
  rw [List.getLast?_eq_some_getLast hne]
  cases h with
  | letters h => exact absurd h hadj
  | unit c hlast halpha hunit =>
    rw [List.getLast?_eq_some_getLast hne, Option.some.injEq] at hlast
    simp only [hlast, halpha, hunit, if_true]
  | digit c hhead hdigit =>
    have hno : ∀ d, (optionValue str).head? = some d → ¬isdigit d := by
      intro d hd
      rw [hhead] at hd
      cases hd
      exact hdigit
    dsimp only
    split_ifs with halpha
    · split
      · rfl
      · exact sizeValue_refused fun d hd => hno d (head_dropLast hd)
    · exact sizeValue_refused hno

/-- What passes the checks: it begins with a digit, and a letter at its end is a unit. -/
theorem passes (hne : v ≠ []) (h : ¬Refused v) :
    adjacentAlpha v = false ∧ (∃ c, v.head? = some c ∧ isdigit c) ∧
      (number v = v ∧ multiplier v = 1 ∧ isalpha (v.getLast hne) = false ∨
        number v = v.dropLast ∧ isalpha (v.getLast hne) ∧ unitMultiplier (v.getLast hne) = some (multiplier v)) := by
  refine ⟨?_, ?_, ?_⟩
  · by_contra hadj
    exact h (.letters (by simpa using hadj))
  · obtain ⟨c, rest, rfl⟩ := List.exists_cons_of_ne_nil hne
    refine ⟨c, rfl, ?_⟩
    by_contra hdigit
    exact h (.digit c rfl hdigit)
  · have hlast := List.getLast?_eq_some_getLast hne
    by_cases halpha : isalpha (v.getLast hne)
    · right
      cases hunit : unitMultiplier (v.getLast hne) with
      | none => exact absurd (.unit _ hlast halpha hunit) h
      | some m =>
        rw [number, multiplier, hlast]
        simp [halpha, hunit]
    · left
      rw [number, multiplier, hlast]
      simp [halpha]

theorem number_head (hne : v ≠ []) (h : ¬Refused v) : ∃ c, (number v).head? = some c ∧ isdigit c := by
  obtain ⟨-, ⟨c, hhead, hdigit⟩, ⟨hnumber, -, -⟩ | ⟨hnumber, halpha, -⟩⟩ := passes hne h
  · exact ⟨c, by rw [hnumber, hhead], hdigit⟩
  · refine ⟨c, ?_, hdigit⟩
    rw [hnumber]
    match v, hhead with
    | [c], hhead =>
      cases hhead
      rw [List.getLast_singleton, isalpha_of_isdigit hdigit] at halpha
      cases halpha
    | _ :: _ :: _, hhead => exact hhead

theorem parseSize_passes {str : Str} (hne : optionValue str ≠ []) (h : ¬Refused (optionValue str)) :
    parseSize str =
      .ok (strtoull (number (optionValue str)) * multiplier (optionValue str) % 2 ^ 64) := by
  obtain ⟨c, hc, hdigit⟩ := number_head hne h
  rw [parseSize_eq, parseSizeRule, List.getLast?_eq_some_getLast hne]
  obtain ⟨hadj, -, ⟨hnumber, hmult, halpha⟩ | ⟨hnumber, halpha, hunit⟩⟩ := passes hne h
  · rw [hadj]
    simp only [halpha, hmult]
    rw [hnumber] at hc ⊢
    exact sizeValue_digit hc hdigit
  · rw [hadj]
    simp only [halpha, hunit, if_true]
    rw [hnumber] at hc ⊢
    exact sizeValue_digit hc hdigit

theorem multiplier_pos (hne : v ≠ []) (h : ¬Refused v) : 0 < multiplier v := by
  obtain ⟨-, -, ⟨-, hmult, -⟩ | ⟨-, -, hunit⟩⟩ := passes hne h
  · rw [hmult]
    exact Nat.one_pos
  · exact unit_pos hunit

/-- The two spellings of a size agree. -/
theorem isSize_iff (hne : v ≠ []) :
    IsSize v n ↔ ¬Refused v ∧ (∀ c ∈ number v, isdigit c) ∧ n = digitsValue (number v) * multiplier v ∧ n < 2 ^ 64 := by
  constructor
  · rintro ⟨ds, suffix, m, rfl, hds, hdigits, hm, hn, hlt⟩
    have hhead : ∀ c, (ds ++ suffix).head? = some c → isdigit c := by
      obtain ⟨d, ds, rfl⟩ := List.exists_cons_of_ne_nil hds
      exact fun c hc => hdigits c (by cases hc; exact List.mem_cons_self)
    match suffix, hm with
    | [], hm =>
      obtain rfl : 1 = m := Option.some.inj hm
      rw [List.append_nil] at hne hhead ⊢
      have halpha := isalpha_of_isdigit (hdigits _ (List.getLast_mem hds))
      have hlast := List.getLast?_eq_some_getLast hds
      have hnumber : number ds = ds := by
        rw [number, hlast]
        simp [halpha]
      have hmult : multiplier ds = 1 := by
        rw [multiplier, hlast]
        simp [halpha]
      rw [hnumber, hmult]
      refine ⟨?_, hdigits, hn, hlt⟩
      rintro (h | ⟨c, hc, hca, -⟩ | ⟨c, hc, hcd⟩)
      · rw [← List.append_nil ds, adjacentAlpha_digits hdigits [] (Nat.zero_le 1)] at h
        cases h
      · rw [hlast] at hc
        cases hc
        rw [halpha] at hca
        cases hca
      · exact hcd (hhead c hc)
    | [u], hm =>
      have halpha := isalpha_of_unit hm
      have hlast : (ds ++ [u]).getLast? = some u := List.getLast?_concat
      have hunit : unitMultiplier u = some m := hm
      have hnumber : number (ds ++ [u]) = ds := by
        rw [number, hlast]
        simp [halpha]
      have hmult : multiplier (ds ++ [u]) = m := by
        rw [multiplier, hlast]
        simp [halpha, hunit]
      rw [hnumber, hmult]
      refine ⟨?_, hdigits, hn, hlt⟩
      rintro (h | ⟨c, hc, -, hcu⟩ | ⟨c, hc, hcd⟩)
      · rw [adjacentAlpha_digits hdigits [u] (Nat.le_refl 1)] at h
        cases h
      · rw [hlast] at hc
        cases hc
        rw [hunit] at hcu
        cases hcu
      · exact hcd (hhead c hc)
  · rintro ⟨hpass, hdigits, hn, hlt⟩
    obtain ⟨c, hhead, -⟩ := number_head hne hpass
    have hds : number v ≠ [] := by
      intro hnil
      rw [hnil] at hhead
      cases hhead
    obtain ⟨-, -, ⟨hnumber, hmult, -⟩ | ⟨hnumber, -, hunit⟩⟩ := passes hne hpass
    · refine ⟨number v, [], 1, ?_, hds, hdigits, rfl, ?_, hlt⟩
      · rw [hnumber, List.append_nil]
      · rw [hn, hmult]
    · refine ⟨number v, [v.getLast hne], multiplier v, ?_, hds, hdigits, hunit, hn, hlt⟩
      rw [hnumber, List.dropLast_concat_getLast hne]

theorem strtoull_product (hdigits : ∀ c ∈ ds, isdigit c) (hm : 0 < m) (h : digitsValue ds * m < 2 ^ 64) :
    strtoull ds * m % 2 ^ 64 = digitsValue ds * m := by
  have hle : digitsValue ds ≤ digitsValue ds * m := Nat.le_mul_of_pos_right _ hm
  rw [strtoull, List.takeWhile_eq_self_iff.2 hdigits, Nat.min_eq_left (by omega), Nat.mod_eq_of_lt h]

/-- The parser does what it is for, but for an option without a value, and for a text that passes its checks with
something else than digits before the unit, or with a product of more than 64 bits. -/
theorem size_right_iff (str : Str) :
    Right str ↔ optionValue str ≠ [] ∧ (Refused (optionValue str) ∨ (∀ c ∈ number (optionValue str), isdigit c) ∧
      digitsValue (number (optionValue str)) * multiplier (optionValue str) < 2 ^ 64) := by
  by_cases hempty : optionValue str = []
  · refine iff_of_false (fun h => ?_) fun h => h.1 hempty
    have hno : ∀ n, ¬IsSize (optionValue str) n := by
      rintro n ⟨ds, suffix, m, hv, hds, -⟩
      rw [hempty] at hv
      exact hds (List.append_eq_nil_iff.1 hv.symm).1
    have hrejects := h.rejects hno
    rw [parseSize_empty hempty] at hrejects
    cases hrejects
  by_cases hrefused : Refused (optionValue str)
  · refine iff_of_true ⟨fun n hn => ?_, fun _ => parseSize_refused hempty hrefused⟩ ⟨hempty, .inl hrefused⟩
    exact absurd hrefused ((isSize_iff hempty).1 hn).1
  have hpos := multiplier_pos hempty hrefused
  constructor
  · refine fun h => ⟨hempty, .inr ?_⟩
    by_contra hbad
    have hrejects := h.rejects fun n hn => hbad (by
      obtain ⟨-, hdigits, rfl, hlt⟩ := (isSize_iff hempty).1 hn
      exact ⟨hdigits, hlt⟩)
    rw [parseSize_passes hempty hrefused] at hrejects
    cases hrejects
  · rintro ⟨-, hbad | ⟨hdigits, hlt⟩⟩
    · exact absurd hbad hrefused
    have hsize := (isSize_iff hempty).2 ⟨hrefused, hdigits, rfl, hlt⟩
    refine ⟨fun n hn => ?_, fun hno => absurd hsize (hno _)⟩
    obtain ⟨-, -, rfl, -⟩ := (isSize_iff hempty).1 hn
    rw [parseSize_passes hempty hrefused, strtoull_product hdigits hpos hlt]

theorem unitInside_wrong : ¬Right (bytes "size=10k5") := by
  intro h
  have hvalue : optionValue (bytes "size=10k5") = bytes "10k5" := by decide
  have hrejects := h.rejects fun n hn => by
    rw [hvalue] at hn
    obtain ⟨-, hdigits, -⟩ := (isSize_iff (by decide)).1 hn
    exact absurd (hdigits 107 (by decide)) (by decide)
  have hgood : parseSize (bytes "size=10k5") = .ok 10 := by decide
  rw [hgood] at hrejects
  cases hrejects

end Ltfs.CriteriaSize
