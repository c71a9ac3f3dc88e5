import Mathlib.Data.List.Basic
import Mathlib.Algebra.Order.Ring.Nat

namespace Ltfs.Lib.Base64

/-- The 64 digits, in order. -/
def alphabet : List UInt8 :=
  "ABCDEFGHIJKLMNOPQRSTUVWXYZabcdefghijklmnopqrstuvwxyz0123456789+/".toList.map fun c => UInt8.ofNat c.toNat

/-- The sign `=`. -/
def pad : UInt8 := 61

def digit (v : Nat) : UInt8 := alphabet.getD v 0

/-- Three bytes become four digits; what is missing at the end is padded. -/
def encode : List UInt8 → List UInt8
  | [] => []
  | [a] => [digit (a.toNat / 4), digit (a.toNat % 4 * 16), pad, pad]
  | [a, b] =>
    [digit (a.toNat / 4), digit (a.toNat % 4 * 16 + b.toNat / 16), digit (b.toNat % 16 * 4), pad]
  | a :: b :: c :: rest =>
    digit (a.toNat / 4) :: digit (a.toNat % 4 * 16 + b.toNat / 16) :: digit (b.toNat % 16 * 4 + c.toNat / 64) ::
      digit (c.toNat % 64) :: encode rest

/-- Groups of four digits, of which the last may be padded. -/
inductive IsBase64 : List UInt8 → Prop
  | one {a b : UInt8} (ha : a ∈ alphabet) (hb : b ∈ alphabet) : IsBase64 [a, b, pad, pad]
  | two {a b c : UInt8} (ha : a ∈ alphabet) (hb : b ∈ alphabet) (hc : c ∈ alphabet) : IsBase64 [a, b, c, pad]
  | three {a b c d : UInt8} (ha : a ∈ alphabet) (hb : b ∈ alphabet) (hc : c ∈ alphabet) (hd : d ∈ alphabet) :
      IsBase64 [a, b, c, d]
  | more {a b c d : UInt8} {t : List UInt8} (ha : a ∈ alphabet) (hb : b ∈ alphabet) (hc : c ∈ alphabet)
      (hd : d ∈ alphabet) (ht : IsBase64 t) : IsBase64 (a :: b :: c :: d :: t)

variable {v : Nat} {x t : List UInt8}

/-- The capital letters, the small ones, the figures and two signs -/
theorem alphabet_eq : alphabet =
    (List.range' 65 26 ++ List.range' 97 26 ++ List.range' 48 10 ++ [43, 47]).map UInt8.ofNat := rfl

theorem length_alphabet : alphabet.length = 64 := by
  rw [alphabet_eq]
  rfl

theorem nodup_alphabet : alphabet.Nodup := by
  rw [alphabet_eq]
  decide

theorem pad_notMem : pad ∉ alphabet := by
  rw [alphabet_eq]
  decide

theorem digit_mem (h : v < 64) : digit v ∈ alphabet := by
  have hv : v < alphabet.length := by
    rw [length_alphabet]
    exact h
  rw [digit, List.getD_eq_getElem?_getD, List.getElem?_eq_getElem hv]
  exact List.getElem_mem hv

theorem idxOf_digit (h : v < 64) : alphabet.idxOf (digit v) = v := by
  have hv : v < alphabet.length := by
    rw [length_alphabet]
    exact h
  rw [digit, List.getD_eq_getElem?_getD, List.getElem?_eq_getElem hv]
  exact List.Nodup.idxOf_getElem nodup_alphabet v hv

theorem encode_isBase64 (h : x ≠ []) : IsBase64 (encode x) := by
  induction x using encode.induct with
  | case1 => exact absurd rfl h
  | case2 a =>
    have ha := a.toNat_lt
    exact .one (digit_mem (by omega)) (digit_mem (by omega))
  | case3 a b =>
    have ha := a.toNat_lt
    have hb := b.toNat_lt
    exact .two (digit_mem (by omega)) (digit_mem (by omega)) (digit_mem (by omega))
  | case4 a b c rest ih =>
    have ha := a.toNat_lt
    have hb := b.toNat_lt
    have hc := c.toNat_lt
    have h₁ : digit (a.toNat / 4) ∈ alphabet := digit_mem (by omega)
    have h₂ : digit (a.toNat % 4 * 16 + b.toNat / 16) ∈ alphabet := digit_mem (by omega)
    have h₃ : digit (b.toNat % 16 * 4 + c.toNat / 64) ∈ alphabet := digit_mem (by omega)
    have h₄ : digit (c.toNat % 64) ∈ alphabet := digit_mem (by omega)
    rw [encode]
    by_cases hrest : rest = []
    · rw [hrest]
      exact .three h₁ h₂ h₃ h₄
    · exact .more h₁ h₂ h₃ h₄ (ih hrest)

/-- The digits and at most two signs for padding, with a length that is a multiple of four. -/
theorem isBase64_of_digits {x : List UInt8} {n : Nat} (hn : n ≤ 2) (hpos : x ≠ []) (hx : ∀ c ∈ x, c ∈ alphabet)
    (hlen : (x.length + n) % 4 = 0) : IsBase64 (x ++ List.replicate n pad) := by
  match x with
  | [] => exact absurd rfl hpos
  | [a] =>
    rw [List.length_singleton] at hlen
    omega
  | [a, b] =>
    obtain rfl : n = 2 := by
      simp only [List.length_cons, List.length_nil] at hlen
      omega
    exact .one (hx a (by simp)) (hx b (by simp))
  | [a, b, c] =>
    obtain rfl : n = 1 := by
      simp only [List.length_cons, List.length_nil] at hlen
      omega
    exact .two (hx a (by simp)) (hx b (by simp)) (hx c (by simp))
  | a :: b :: c :: d :: rest =>
    have hrest : ∀ r ∈ rest, r ∈ alphabet := fun r hr => hx r (by simp [hr])
    have hmore : (rest.length + n) % 4 = 0 := by
      simp only [List.length_cons] at hlen
      omega
    by_cases hnil : rest = []
    · subst hnil
      obtain rfl : n = 0 := by
        rw [List.length_nil] at hmore
        omega
      exact .three (hx a (by simp)) (hx b (by simp)) (hx c (by simp)) (hx d (by simp))
    · exact .more (hx a (by simp)) (hx b (by simp)) (hx c (by simp)) (hx d (by simp))
        (isBase64_of_digits hn hnil hrest hmore)

/-- An encoding is a run of digits and then the padding, which tells how many bytes are missing in the end. -/
theorem encode_shape (h : x ≠ []) : ∃ ds k, encode x = ds ++ List.replicate k pad ∧ k ≤ 2 ∧ ds ≠ [] ∧
    (∀ c ∈ ds, c ∈ alphabet) ∧ (ds.length + k) % 4 = 0 ∧ 3 * ((ds.length + k) / 4) = x.length + k := by
  induction x using encode.induct with
  | case1 => exact absurd rfl h
  | case2 a =>
    have ha := a.toNat_lt
    refine ⟨[digit (a.toNat / 4), digit (a.toNat % 4 * 16)], 2, rfl, by decide, by simp, ?_, by simp, by simp⟩
    exact List.forall_mem_cons.2 ⟨digit_mem (by omega), List.forall_mem_singleton.2 (digit_mem (by omega))⟩
  | case3 a b =>
    have ha := a.toNat_lt
    have hb := b.toNat_lt
    refine ⟨[digit (a.toNat / 4), digit (a.toNat % 4 * 16 + b.toNat / 16), digit (b.toNat % 16 * 4)], 1, rfl,
      by decide, by simp, ?_, by simp, by simp⟩
    exact List.forall_mem_cons.2 ⟨digit_mem (by omega), List.forall_mem_cons.2 ⟨digit_mem (by omega),
      List.forall_mem_singleton.2 (digit_mem (by omega))⟩⟩
  | case4 a b c rest ih =>
    have ha := a.toNat_lt
    have hb := b.toNat_lt
    have hc := c.toNat_lt
    have hfour : ∀ d ∈ [digit (a.toNat / 4), digit (a.toNat % 4 * 16 + b.toNat / 16),
        digit (b.toNat % 16 * 4 + c.toNat / 64), digit (c.toNat % 64)], d ∈ alphabet :=
      List.forall_mem_cons.2 ⟨digit_mem (by omega), List.forall_mem_cons.2 ⟨digit_mem (by omega),
        List.forall_mem_cons.2 ⟨digit_mem (by omega), List.forall_mem_singleton.2 (digit_mem (by omega))⟩⟩⟩
    by_cases hrest : rest = []
    · subst hrest
      exact ⟨_, 0, rfl, by decide, by simp, hfour, by simp, by simp⟩
    · obtain ⟨ds, k, hds, hk, -, hmem, hmod, hlen⟩ := ih hrest
      refine ⟨digit (a.toNat / 4) :: digit (a.toNat % 4 * 16 + b.toNat / 16) ::
        digit (b.toNat % 16 * 4 + c.toNat / 64) :: digit (c.toNat % 64) :: ds, k, ?_, hk, by simp, ?_, ?_, ?_⟩
      · rw [encode, hds]
        rfl
      · intro d hd
        have hd' : d ∈ [digit (a.toNat / 4), digit (a.toNat % 4 * 16 + b.toNat / 16),
            digit (b.toNat % 16 * 4 + c.toNat / 64), digit (c.toNat % 64)] ++ ds := hd
        exact (List.mem_append.1 hd').elim (hfour d) (hmem d)
      · simp only [List.length_cons]
        omega
      · simp only [List.length_cons]
        omega

/-- The digits before the padding are determined. -/
theorem digits_unique {a b u v : List UInt8} (ha : ∀ c ∈ a, c ∈ alphabet) (hb : ∀ c ∈ b, c ∈ alphabet)
    (hu : ∀ c ∈ u.head?, c = pad) (hv : ∀ c ∈ v.head?, c = pad) (h : a ++ u = b ++ v) : a = b ∧ u = v := by
  induction a generalizing b with
  | nil =>
    cases b with
    | nil => exact ⟨rfl, h⟩
    | cons d b =>
      rw [List.nil_append] at h
      have hd : d = pad := hu d (by simp [h])
      exact absurd (hb d List.mem_cons_self) (hd ▸ pad_notMem)
  | cons c a ih =>
    cases b with
    | nil =>
      have hc : c = pad := hv c (by rw [List.nil_append] at h; simp [← h])
      exact absurd (ha c List.mem_cons_self) (hc ▸ pad_notMem)
    | cons d b =>
      rw [List.cons_append, List.cons_append, List.cons.injEq] at h
      obtain ⟨hab, huv⟩ := ih (fun c hc => ha c (List.mem_cons_of_mem _ hc))
        (fun c hc => hb c (List.mem_cons_of_mem _ hc)) h.2
      exact ⟨by rw [h.1, hab], huv⟩

end Ltfs.Lib.Base64
