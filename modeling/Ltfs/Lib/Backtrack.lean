import Mathlib.Data.Prod.Lex
import Mathlib.Order.WellFounded
import Ltfs.Lib.Glob
import Ltfs.Lib.Machine

namespace Ltfs.Backtrack

open Glob

variable {α : Type}

/-- A place to go back to: what was left of the pattern behind an asterisk, and of the name -/
abbrev Place (α : Type) := List (Sym α) × List α

structure State (α : Type) where
  pattern : List (Sym α)
  name : List α
  stack : List (Place α)
  asterisk : Bool

/-- Only the first and the last place are kept. -/
def push (e : Place α) : List (Place α) → List (Place α)
  | [] => [e]
  | base :: _ => [base, e]

/-- Back to the last place, where the asterisk takes one element more -/
def back (stack : List (Place α)) : State α ⊕ Bool :=
  match stack.getLast? with
  | none => .inr false
  | some (p, n) => .inl ⟨p, n.tail, stack.dropLast, true⟩

/-- What the state can still match -/
def Current (s : State α) : Prop :=
  Matches (if s.asterisk then .star :: s.pattern else s.pattern) s.name

/-- What a place can still match -/
def Later (e : Place α) : Prop := Matches (.star :: e.1) e.2.tail

/-- The last place is met again when the state comes to the next asterisk: either it was passed already, or the
name and the pattern went on from it side by side. -/
def Covers (s : State α) (e : Place α) : Prop :=
  if s.asterisk then Later e → Current s
  else ∃ seg m, .star ∉ seg ∧ m.length = seg.length ∧ e.1 = seg ++ s.pattern ∧ e.2 = m ++ s.name

/-- What holds of the places, for each shape of the stack -/
inductive Stack (s : State α) : List (Place α) → Prop where
  | nil : Stack s []
  | base (b : Place α) (hc : Covers s b) : Stack s [b]
  | last (b l : Place α) (hc : Covers s l) (hb : Later b → Later l ∨ Current s)
      (hlt : s.name.length < l.2.length) : Stack s [b, l]

/-- The state and the places together are right about what the whole pattern matches. -/
structure Inv (pattern : List (Sym α)) (name : List α) (s : State α) : Prop where
  total : Matches pattern name ↔ Current s ∨ ∃ e ∈ s.stack, Later e
  stack : Stack s s.stack
  pending : s.asterisk → s.pattern ≠ []
  short : s.name.length ≤ name.length
  places : ∀ e ∈ s.stack, e.1 ≠ [] ∧ e.2 ≠ [] ∧ e.2.length ≤ name.length

variable {pattern : List (Sym α)} {name n : List α} {s s' : State α} {p : List (Sym α)} {x : Sym α} {c : α}
  {e : Place α} {limit : Nat}

/-- The part of the measure for a place that is still to come -/
def alone (limit : Nat) (s : State α) : Nat := if s.asterisk then 2 * s.name.length + 1 else 2 * limit + 2

def left (s : State α) : Nat := s.pattern.length + s.name.length

/-- The measure: how far the first place has come, how far the last one, and what is left before the next. -/
def rank (limit : Nat) (s : State α) : Nat ×ₗ Nat ×ₗ Nat :=
  match s.stack with
  | [] => toLex (alone limit s, toLex (0, left s))
  | [b] => toLex (2 * b.2.length, toLex (alone limit s, left s))
  | b :: l :: _ => toLex (2 * b.2.length, toLex (2 * l.2.length, left s))

theorem toLex_lt {a a' b b' d d' : Nat} (h : a < a' ∨ a = a' ∧ (b < b' ∨ b = b' ∧ d < d')) :
    (toLex (a, toLex (b, d)) : Nat ×ₗ Nat ×ₗ Nat) < toLex (a', toLex (b', d')) := by
  rwa [Prod.Lex.toLex_lt_toLex, Prod.Lex.toLex_lt_toLex]

/-- What a step may say: it keeps the invariant and lowers the measure, or gives the right result. -/
def Keeps (pattern : List (Sym α)) (name : List α) : State α → State α ⊕ Bool → Prop :=
  Machine.Keeps (· < ·) (rank name.length) (Inv pattern name) fun b => b = true ↔ Matches pattern name

theorem tail_length (h : n ≠ []) : n.tail.length + 1 = n.length := by
  have := List.length_pos_iff.2 h
  rw [List.length_tail]
  omega

/-- Where nothing is left to match, only a place can help. -/
theorem back_keeps (h : Inv pattern name s) (hc : ¬Current s) : Keeps pattern name s (back s.stack) := by
  obtain ⟨total, stack, -, -, places⟩ := h
  obtain ⟨sp, sn, st, a⟩ := s
  dsimp only at total stack places hc ⊢
  cases stack with
  | nil => exact iff_of_false Bool.false_ne_true fun hm => (total.1 hm).elim hc fun ⟨_, he, _⟩ => nomatch he
  | base b hcov =>
    obtain ⟨hp, hn, hlen⟩ := places b List.mem_cons_self
    have hshort := tail_length hn
    have hcur : Current ⟨b.1, b.2.tail, [], true⟩ ↔ Later b := Iff.rfl
    refine ⟨⟨?_, .nil, fun _ => hp, by dsimp only; omega, nofun⟩, ?_⟩
    · refine total.trans (Iff.trans ?_ (or_congr_left hcur).symm)
      simp [hc]
    · exact toLex_lt (.inl (by simp only [alone, if_true]; omega))
  | last b l hcov hb hlt =>
    obtain ⟨hp, hn, hlen⟩ := places l (List.mem_cons_of_mem b List.mem_cons_self)
    have hshort := tail_length hn
    have hcur : Current ⟨l.1, l.2.tail, [b], true⟩ ↔ Later l := Iff.rfl
    have hcovers : Covers ⟨l.1, l.2.tail, [b], true⟩ b := fun hlater => hcur.2 ((hb hlater).resolve_right hc)
    refine ⟨⟨?_, .base b hcovers, fun _ => hp, by dsimp only; omega, fun e he => places e (List.dropLast_subset _ he)⟩, ?_⟩
    · refine total.trans (Iff.trans ?_ (or_congr_left hcur).symm)
      simp only [hc, false_or, List.mem_cons, List.not_mem_nil, or_false, exists_eq_or_imp, exists_eq_left, List.dropLast]
      exact or_comm
    · exact toLex_lt (.inr ⟨rfl, .inl (by simp only [alone, if_true]; omega)⟩)

theorem Stack.mono {st : List (Place α)} (h : Stack s st) (hcov : ∀ e, Covers s e → Covers s' e)
    (hcur : Current s ↔ Current s') (hname : s'.name.length ≤ s.name.length) : Stack s' st := by
  cases h with
  | nil => exact .nil
  | base b hc => exact .base b (hcov b hc)
  | last b l hc hb hlt => exact .last b l (hcov l hc) (fun hl => (hb hl).imp_right hcur.1) (by omega)

/-- A step that leaves the stack as it is -/
theorem Inv.same (h : Inv pattern name s) (hstack : s'.stack = s.stack) (hcov : ∀ e, Covers s e → Covers s' e)
    (hcur : Current s ↔ Current s') (hname : s'.name.length ≤ s.name.length)
    (hpending : s'.asterisk → s'.pattern ≠ []) : Inv pattern name s' where
  total := by rw [h.total, hcur, hstack]
  stack := by
    rw [hstack]
    exact h.stack.mono hcov hcur hname
  pending := hpending
  short := hname.trans h.short
  places := by
    rw [hstack]
    exact h.places

theorem rank_same (hstack : s'.stack = s.stack) (halone : alone limit s' ≤ alone limit s) (hleft : left s' < left s) :
    rank limit s' < rank limit s := by
  rw [rank, rank, hstack]
  match s.stack with
  | [] => exact toLex_lt (by omega)
  | [_] => exact toLex_lt (by omega)
  | _ :: _ :: _ => exact toLex_lt (.inr ⟨rfl, .inr ⟨rfl, hleft⟩⟩)

/-- An asterisk of the pattern -/
theorem star_keeps (hne : p ≠ []) {st : List (Place α)} {a : Bool} (h : Inv pattern name ⟨.star :: p, n, st, a⟩) :
    Keeps pattern name ⟨.star :: p, n, st, a⟩ (.inl ⟨p, n, st, true⟩) := by
  have hcur : Current ⟨.star :: p, n, st, a⟩ ↔ Current ⟨p, n, st, true⟩ := by
    cases a with
    | true => exact star_star
    | false => exact Iff.rfl
  have hcov : ∀ e, Covers ⟨.star :: p, n, st, a⟩ e → Covers ⟨p, n, st, true⟩ e := by
    intro e hc hlater
    cases a with
    | true => exact hcur.1 (hc hlater)
    | false =>
      obtain ⟨seg, m, hseg, hlen, hp, hn⟩ := hc
      rw [Later, hp, hn] at hlater
      exact later_match hseg hlen hlater
  refine ⟨h.same rfl hcov hcur (Nat.le_refl _) fun _ => hne, rank_same rfl ?_ ?_⟩
  · have := h.short
    cases a with
    | true => exact Nat.le_refl _
    | false =>
      simp only [alone, if_true, Bool.false_eq_true, if_false] at this ⊢
      omega
  · simp only [left, List.length_cons]
    omega

variable [DecidableEq α]

def step (s : State α) : State α ⊕ Bool :=
  match s.pattern, s.name with
  | [], [] => .inr true
  | [], _ :: _ => back s.stack
  | [.star], _ => .inr true
  | .star :: p, n => .inl ⟨p, n, s.stack, true⟩
  | _ :: _, [] => back s.stack
  | x :: p, c :: n =>
    if x.fits c then .inl ⟨p, n, if s.asterisk then push (x :: p, c :: n) s.stack else s.stack, false⟩
    else if s.asterisk then .inl ⟨x :: p, n, s.stack, true⟩
    else back s.stack

theorem step_cons (hx : x ≠ .star) (st : List (Place α)) (a : Bool) :
    step ⟨x :: p, c :: n, st, a⟩ =
      if x.fits c then .inl ⟨p, n, if a then push (x :: p, c :: n) st else st, false⟩
      else if a then .inl ⟨x :: p, n, st, true⟩
      else back st := by
  cases x with
  | star => exact absurd rfl hx
  | any => rfl
  | lit b => rfl

theorem step_empty (hx : x ≠ .star) (st : List (Place α)) (a : Bool) : step ⟨x :: p, [], st, a⟩ = back st := by
  cases x with
  | star => exact absurd rfl hx
  | any => rfl
  | lit b => rfl

/-- An element that the pattern takes, with no asterisk open -/
theorem plain_keeps (hx : x ≠ .star) (hfits : x.fits c) {st : List (Place α)}
    (h : Inv pattern name ⟨x :: p, c :: n, st, false⟩) :
    Keeps pattern name ⟨x :: p, c :: n, st, false⟩ (.inl ⟨p, n, st, false⟩) := by
  have hcur : Current ⟨x :: p, c :: n, st, false⟩ ↔ Current ⟨p, n, st, false⟩ :=
    (matches_cons hx).trans (and_iff_right hfits)
  have hcov : ∀ e, Covers ⟨x :: p, c :: n, st, false⟩ e → Covers ⟨p, n, st, false⟩ e := by
    rintro e ⟨seg, m, hseg, hlen, hp, hn⟩
    refine ⟨seg ++ [x], m ++ [c], ?_, ?_, ?_, ?_⟩
    · rw [List.mem_append, not_or]
      exact ⟨hseg, by simpa using Ne.symm hx⟩
    · rw [List.length_append, List.length_append, hlen]
      rfl
    · rw [hp, List.append_assoc]
      rfl
    · rw [hn, List.append_assoc]
      rfl
  refine ⟨h.same rfl hcov hcur (Nat.le_succ _) nofun, rank_same rfl (Nat.le_refl _) ?_⟩
  simp only [left, List.length_cons]
  omega

/-- An element that is left to the open asterisk -/
theorem skip_keeps (hx : x ≠ .star) (hfits : ¬x.fits c) {st : List (Place α)}
    (h : Inv pattern name ⟨x :: p, c :: n, st, true⟩) :
    Keeps pattern name ⟨x :: p, c :: n, st, true⟩ (.inl ⟨x :: p, n, st, true⟩) := by
  have hcur : Current ⟨x :: p, c :: n, st, true⟩ ↔ Current ⟨x :: p, n, st, true⟩ :=
    star_cons.trans (or_iff_right fun hm => hfits ((matches_cons hx).1 hm).1)
  have hcov : ∀ e, Covers ⟨x :: p, c :: n, st, true⟩ e → Covers ⟨x :: p, n, st, true⟩ e :=
    fun e hc hlater => hcur.1 (hc hlater)
  refine ⟨h.same rfl hcov hcur (Nat.le_succ _) fun _ => List.cons_ne_nil _ _, rank_same rfl ?_ ?_⟩
  · simp only [alone, if_true, List.length_cons]
    omega
  · simp only [left, List.length_cons]
    omega

/-- An element that the pattern takes behind an open asterisk: the place is kept, and with two of them the later one
of the earlier places is given up. -/
theorem push_keeps (hx : x ≠ .star) (hfits : x.fits c) {st : List (Place α)}
    (h : Inv pattern name ⟨x :: p, c :: n, st, true⟩) :
    Keeps pattern name ⟨x :: p, c :: n, st, true⟩ (.inl ⟨p, n, push (x :: p, c :: n) st, false⟩) := by
  have hcur : ∀ st', Current ⟨x :: p, c :: n, st, true⟩ ↔ Current ⟨p, n, st', false⟩ ∨ Later (x :: p, c :: n) :=
    fun st' => star_cons.trans (or_congr_left ((matches_cons hx).trans (and_iff_right hfits)))
  have hcov : ∀ st', Covers ⟨p, n, st', false⟩ (x :: p, c :: n) :=
    fun st' => ⟨[x], [c], by simpa using Ne.symm hx, rfl, rfl, rfl⟩
  have hnew : ((x :: p, c :: n) : Place α).1 ≠ [] ∧ ((x :: p, c :: n) : Place α).2 ≠ [] ∧
      ((x :: p, c :: n) : Place α).2.length ≤ name.length :=
    ⟨List.cons_ne_nil _ _, List.cons_ne_nil _ _, h.short⟩
  have hshort : n.length ≤ name.length := (Nat.le_succ _).trans h.short
  obtain ⟨total, stack, -, -, places⟩ := h
  dsimp only at total stack places
  cases stack with
  | nil =>
    refine ⟨⟨?_, .base _ (hcov _), nofun, hshort, List.forall_mem_singleton.2 hnew⟩, toLex_lt (.inl ?_)⟩
    · rw [total, hcur [(x :: p, c :: n)]]
      simp [push]
    · simp only [alone, if_true]
      omega
  | base b hc =>
    have hplaces : ∀ e ∈ [b, (x :: p, c :: n)], e.1 ≠ [] ∧ e.2 ≠ [] ∧ e.2.length ≤ name.length :=
      List.forall_mem_cons.2 ⟨places b List.mem_cons_self, List.forall_mem_singleton.2 hnew⟩
    refine ⟨⟨?_, .last b _ (hcov _) (fun hl => ((hcur _).1 (hc hl)).symm) (Nat.lt_succ_self _), nofun, hshort, hplaces⟩,
      toLex_lt (.inr ⟨rfl, .inl ?_⟩)⟩
    · rw [total, hcur [b, (x :: p, c :: n)], or_assoc]
      simp only [push, List.mem_cons, List.not_mem_nil, or_false, exists_eq_or_imp, exists_eq_left]
      exact or_congr_right or_comm
    · simp only [alone, if_true]
      omega
  | last b l hc hb hlt =>
    have hplaces : ∀ e ∈ [b, (x :: p, c :: n)], e.1 ≠ [] ∧ e.2 ≠ [] ∧ e.2.length ≤ name.length :=
      List.forall_mem_cons.2 ⟨places b List.mem_cons_self, List.forall_mem_singleton.2 hnew⟩
    have hb' : Later b → Current ⟨x :: p, c :: n, [b, l], true⟩ := fun hl => (hb hl).elim hc id
    refine ⟨⟨?_, .last b _ (hcov _) (fun hl => ((hcur _).1 (hb' hl)).symm) (Nat.lt_succ_self _), nofun, hshort, hplaces⟩,
      toLex_lt (.inr ⟨rfl, .inl ?_⟩)⟩
    · have hl : Later l → Current ⟨x :: p, c :: n, [b, l], true⟩ := hc
      have habsorb : Current ⟨x :: p, c :: n, [b, l], true⟩ ∨ Later b ∨ Later l ↔
          Current ⟨x :: p, c :: n, [b, l], true⟩ ∨ Later b := by
        rw [or_left_comm, or_iff_left_of_imp hl, or_comm]
      simp only [List.mem_cons, List.not_mem_nil, or_false, exists_eq_or_imp, exists_eq_left] at total
      rw [total, habsorb, hcur [b, (x :: p, c :: n)], or_assoc]
      simp only [push, List.mem_cons, List.not_mem_nil, or_false, exists_eq_or_imp, exists_eq_left]
      exact or_congr_right or_comm
    · dsimp only at hlt ⊢
      omega

theorem other_keeps (hx : x ≠ .star) {st : List (Place α)} {a : Bool} (h : Inv pattern name ⟨x :: p, n, st, a⟩) :
    Keeps pattern name ⟨x :: p, n, st, a⟩ (step ⟨x :: p, n, st, a⟩) := by
  cases n with
  | nil =>
    rw [step_empty hx]
    refine back_keeps h fun hcur => ?_
    cases a with
    | true => exact not_matches_empty hx (star_nil.1 hcur)
    | false => exact not_matches_empty hx hcur
  | cons c n =>
    rw [step_cons hx]
    by_cases hfits : x.fits c
    · rw [if_pos hfits]
      cases a with
      | true => exact push_keeps hx hfits h
      | false => exact plain_keeps hx hfits h
    · rw [if_neg hfits]
      cases a with
      | true => exact skip_keeps hx hfits h
      | false => exact back_keeps h fun hcur => hfits ((matches_cons hx).1 hcur).1

theorem step_keeps (h : Inv pattern name s) : Keeps pattern name s (step s) := by
  obtain ⟨sp, sn, st, a⟩ := s
  match sp, sn with
  | [], [] =>
    have hcur : Current ⟨[], [], st, a⟩ := by
      cases a with
      | true => exact .skip .nil
      | false => exact .nil
    exact iff_of_true rfl (h.total.2 (.inl hcur))
  | [], c :: n =>
    refine back_keeps h fun hcur => ?_
    cases a with
    | true => exact h.pending rfl rfl
    | false => exact nomatch matches_nil.1 hcur
  | [.star], n =>
    have hstep : step ⟨[.star], n, st, a⟩ = .inr true := by
      cases n <;> rfl
    have hcur : Current ⟨[.star], n, st, a⟩ := by
      cases a with
      | true => exact star_star.2 (star_all n)
      | false => exact star_all n
    rw [hstep]
    exact iff_of_true rfl (h.total.2 (.inl hcur))
  | .star :: x :: p, n =>
    have hstep : step ⟨.star :: x :: p, n, st, a⟩ = .inl ⟨x :: p, n, st, true⟩ := by
      cases n <;> rfl
    rw [hstep]
    exact star_keeps (List.cons_ne_nil x p) h
  | .any :: p, n => exact other_keeps (by simp) h
  | .lit _ :: p, n => exact other_keeps (by simp) h

/-- The machine ends, and its result says whether the pattern stands for the name. -/
theorem run_correct (pattern : List (Sym α)) (name : List α) :
    ∃ k b, Machine.run step k ⟨pattern, name, [], false⟩ = some b ∧ (b = true ↔ Matches pattern name) := by
  have hstart : Inv pattern name ⟨pattern, name, [], false⟩ :=
    ⟨(or_iff_left nofun).symm, .nil, nofun, Nat.le_refl _, nofun⟩
  exact Machine.run_ends wellFounded_lt (rank name.length) (fun s hs => step_keeps hs) hstart

end Ltfs.Backtrack
