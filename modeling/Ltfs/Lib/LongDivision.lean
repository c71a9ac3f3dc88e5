import Mathlib.Algebra.Polynomial.Div
import Mathlib.Data.List.Induction
import Mathlib.RingTheory.Coprime.Lemmas

namespace Ltfs.Lib.LongDivision

open Polynomial

variable {R β σ : Type} [CommRing R] (c : β → R)

/-- The polynomial that a list of symbols spells, the first symbol its highest coefficient. -/
noncomputable def value (bs : List β) : R[X] :=
  bs.foldl (fun p b => p * X + C (c b)) 0

variable {bs cs : List β} {b : β} {g : R[X]} {k : Nat}

@[simp] theorem value_nil : value c [] = 0 := rfl

theorem value_concat : value c (bs ++ [b]) = value c bs * X + C (c b) := by
  rw [value, List.foldl_append]
  rfl

theorem value_append : value c (bs ++ cs) = value c bs * X ^ cs.length + value c cs := by
  induction cs using List.reverseRecOn with
  | nil => simp
  | append_singleton cs b ih =>
    rw [← List.append_assoc, value_concat, ih, value_concat, List.length_append, List.length_singleton]
    ring

theorem degree_value_lt [Nontrivial R] : (value c bs).degree < bs.length := by
  induction bs using List.reverseRecOn with
  | nil => simp
  | append_singleton bs b ih =>
    rw [value_concat, List.length_append, List.length_singleton]
    refine (degree_add_le _ _).trans_lt (max_lt ?_ ?_)
    · rw [degree_mul_X]
      push_cast
      exact WithBot.add_lt_add_right WithBot.one_ne_bot ih
    · refine degree_C_le.trans_lt ?_
      exact_mod_cast Nat.succ_pos _

/-- A register that stands for a polynomial and whose step multiplies by `X` and adds the new symbol at
`X ^ k`, up to a multiple of the divisor, divides what it is given. -/
theorem run_dvd (f : σ → R[X]) (step : σ → β → σ) {s : σ} (hs : f s = 0)
    (hstep : ∀ s b, g ∣ f (step s b) - (f s * X + C (c b) * X ^ k)) (bs : List β) :
    g ∣ f (bs.foldl step s) - value c bs * X ^ k := by
  induction bs using List.reverseRecOn with
  | nil => simp [hs]
  | append_singleton bs b ih =>
    rw [List.foldl_append, value_concat]
    have hsum := dvd_add (hstep (bs.foldl step s) b) (dvd_mul_of_dvd_left ih X)
    have hring : f (step (bs.foldl step s) b) - (value c bs * X + C (c b)) * X ^ k =
        f (step (bs.foldl step s) b) - (f (bs.foldl step s) * X + C (c b) * X ^ k) +
          (f (bs.foldl step s) - value c bs * X ^ k) * X := by ring
    rw [List.foldl_cons, List.foldl_nil, hring]
    exact hsum

/-- A polynomial of lower degree that differs by a multiple of the divisor is the remainder. -/
theorem eq_modByMonic [Nontrivial R] (hg : g.Monic) {p q : R[X]} (hdeg : p.degree < g.degree) (h : g ∣ p - q) :
    p = q %ₘ g := by
  rw [← modByMonic_eq_of_dvd_sub hg h]
  exact ((modByMonic_eq_self_iff hg).mpr hdeg).symm

/-- Lists of one length are told apart by their polynomials as far as the symbols are by their values. -/
theorem value_inj (hlen : bs.length = cs.length) (h : value c bs = value c cs) : bs.map c = cs.map c := by
  induction bs using List.reverseRecOn generalizing cs with
  | nil => rw [List.length_eq_zero_iff.mp hlen.symm]
  | append_singleton bs b ih =>
    rcases List.eq_nil_or_concat cs with rfl | ⟨ds, d, rfl⟩
    · simp at hlen
    · rw [List.concat_eq_append] at hlen h ⊢
      rw [value_concat, value_concat] at h
      have hlast : c b = c d := by simpa using congrArg (fun p => p.coeff 0) h
      have hrest : value c bs = value c ds := by
        rw [hlast] at h
        exact (monic_X (R := R)).isRegular.right (add_right_cancel h)
      rw [List.map_append, List.map_append, ih (by simpa using hlen) hrest, List.map_singleton, hlast]
      rfl

/-- Two multiples of a divisor with a constant term do not differ in a stretch as short as its degree only. -/
theorem burst [Nontrivial R] (hg : g.Monic) (hX : IsCoprime g X) {p q w w' : List β}
    (hlen : w.length = w'.length) (hdeg : (w.length : WithBot ℕ) ≤ g.degree)
    (h : g ∣ value c (p ++ w ++ q)) (h' : g ∣ value c (p ++ w' ++ q)) : w.map c = w'.map c := by
  have hdiff : value c (p ++ w ++ q) - value c (p ++ w' ++ q) = (value c w - value c w') * X ^ q.length := by
    simp only [value_append, hlen]
    ring
  have hdvd : g ∣ value c w - value c w' := by
    have hmul : g ∣ (value c w - value c w') * X ^ q.length := by
      rw [← hdiff]
      exact dvd_sub h h'
    exact hX.pow_right.dvd_of_dvd_mul_right hmul
  have hlt : (value c w - value c w').degree < g.degree := by
    refine (degree_sub_le _ _).trans_lt (lt_of_lt_of_le (max_lt (degree_value_lt c) ?_) hdeg)
    rw [hlen]
    exact degree_value_lt c
  have hzero : value c w - value c w' = 0 := by
    by_contra hne
    exact hg.not_dvd_of_degree_lt hne hlt hdvd
  exact value_inj c hlen (sub_eq_zero.mp hzero)

end Ltfs.Lib.LongDivision
