import Mathlib.Data.List.Basic

namespace Ltfs.Glob

inductive Sym (α : Type) where
  | star
  | any
  | lit (a : α)
  deriving DecidableEq, Repr

variable {α : Type}

/-- The names that a pattern stands for -/
inductive Matches : List (Sym α) → List α → Prop where
  | nil : Matches [] []
  | skip {p n} (h : Matches p n) : Matches (.star :: p) n
  | take {p c n} (h : Matches (.star :: p) n) : Matches (.star :: p) (c :: n)
  | any {p c n} (h : Matches p n) : Matches (.any :: p) (c :: n)
  | lit {p c n} (h : Matches p n) : Matches (.lit c :: p) (c :: n)

variable {x : Sym α} {p seg : List (Sym α)} {c : α} {m n : List α}

theorem matches_nil : Matches [] n ↔ n = [] := by
  constructor
  · intro h
    cases h
    rfl
  · rintro rfl
    exact .nil

theorem star_append (h : Matches (.star :: p) n) (m : List α) : Matches (.star :: p) (m ++ n) := by
  induction m with
  | nil => exact h
  | cons c m ih => exact .take ih

theorem star_all (n : List α) : Matches [.star] n := by
  simpa using star_append (.skip .nil) n

/-- An asterisk leaves the end of the name to the rest of the pattern. -/
theorem star_split (h : Matches (.star :: p) n) : ∃ m r, n = m ++ r ∧ Matches p r := by
  induction n with
  | nil =>
    cases h with
    | skip h => exact ⟨[], [], rfl, h⟩
  | cons c n ih =>
    cases h with
    | skip h => exact ⟨[], c :: n, rfl, h⟩
    | take h =>
      obtain ⟨m, r, rfl, hr⟩ := ih h
      exact ⟨c :: m, r, rfl, hr⟩

theorem star_star : Matches (.star :: .star :: p) n ↔ Matches (.star :: p) n := by
  refine ⟨fun h => ?_, .skip⟩
  obtain ⟨m, r, rfl, hr⟩ := star_split h
  exact star_append hr m

theorem star_nil : Matches (.star :: p) [] ↔ Matches p [] := by
  refine ⟨fun h => ?_, .skip⟩
  cases h with
  | skip h => exact h

theorem star_cons : Matches (.star :: p) (c :: n) ↔ Matches p (c :: n) ∨ Matches (.star :: p) n := by
  constructor
  · intro h
    cases h with
    | skip h => exact .inl h
    | take h => exact .inr h
  · rintro (h | h)
    · exact .skip h
    · exact .take h

theorem not_matches_empty (hx : x ≠ .star) : ¬Matches (x :: p) [] := by
  intro h
  cases h with
  | skip => exact hx rfl

/-- A part of the pattern without an asterisk takes as many elements of the name as it has. -/
theorem segment_split (hseg : .star ∉ seg) (h : Matches (seg ++ p) n) :
    ∃ m r, n = m ++ r ∧ m.length = seg.length ∧ Matches p r := by
  induction seg generalizing n with
  | nil => exact ⟨[], n, rfl, rfl, h⟩
  | cons x seg ih =>
    rw [List.mem_cons, not_or] at hseg
    rw [List.cons_append] at h
    have hrest : ∃ c r, n = c :: r ∧ Matches (seg ++ p) r := by
      cases h with
      | skip => exact absurd rfl hseg.1
      | take => exact absurd rfl hseg.1
      | any h => exact ⟨_, _, rfl, h⟩
      | lit h => exact ⟨_, _, rfl, h⟩
    obtain ⟨c, r, rfl, hr⟩ := hrest
    obtain ⟨m, r, rfl, hm, hr⟩ := ih hseg.2 hr
    exact ⟨c :: m, r, rfl, congrArg Nat.succ hm, hr⟩

/-- Where the segment behind an asterisk once met the name, and matches again further on, the next asterisk can take
what is between. -/
theorem later_match (hseg : .star ∉ seg) (hlen : m.length = seg.length)
    (h : Matches (.star :: (seg ++ .star :: p)) (m ++ n).tail) : Matches (.star :: p) n := by
  obtain ⟨a, r, hr, hmatch⟩ := star_split h
  obtain ⟨b, r, rfl, hb, hmatch⟩ := segment_split hseg hmatch
  have hsuffix : r = n.drop (n.length - r.length) := by
    have hend : r <:+ m ++ n := by
      refine (?_ : r <:+ (m ++ n).tail).trans (List.tail_suffix _)
      rw [hr, ← List.append_assoc]
      exact List.suffix_append _ _
    have hshort : r.length ≤ n.length := by
      have := congrArg List.length hr
      simp only [List.length_tail, List.length_append] at this
      omega
    exact List.suffix_iff_eq_drop.1 (List.suffix_of_suffix_length_le hend (List.suffix_append _ _) hshort)
  rw [← List.take_append_drop (n.length - r.length) n, ← hsuffix]
  exact star_append hmatch _

variable [DecidableEq α]

def Sym.fits : Sym α → α → Bool
  | .star, _ => false
  | .any, _ => true
  | .lit a, c => a = c

theorem matches_cons (hx : x ≠ .star) : Matches (x :: p) (c :: n) ↔ x.fits c ∧ Matches p n := by
  constructor
  · intro h
    cases h with
    | skip => exact absurd rfl hx
    | take => exact absurd rfl hx
    | any h => exact ⟨rfl, h⟩
    | lit h => exact ⟨decide_eq_true rfl, h⟩
  · rintro ⟨hfits, h⟩
    cases x with
    | star => exact absurd rfl hx
    | any => exact .any h
    | lit a =>
      obtain rfl : a = c := of_decide_eq_true hfits
      exact .lit h

end Ltfs.Glob
