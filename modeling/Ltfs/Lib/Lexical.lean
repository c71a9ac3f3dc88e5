import Mathlib.Data.List.Basic
import Mathlib.Data.List.Induction
import Mathlib.Algebra.Order.Ring.Nat

namespace Ltfs.Lib.Lexical

/-- A step of a walk in a tree of names. -/
inductive Step (α : Type) where
  | up
  | stay
  | into (a : α)
  deriving DecidableEq, Repr

variable {α : Type}

/-- Where a walk leads from a place, given by the names on the way to it. There is nothing above the root. -/
def run : List α → List (Step α) → Option (List α)
  | place, [] => some place
  | place, .stay :: s => run place s
  | place, .into a :: s => run (place ++ [a]) s
  | [], .up :: _ => none
  | b :: place, .up :: s => run (b :: place).dropLast s

/-- How far a walk has gone above its start, and the names it has gone into from there. -/
def next : Nat × List α → Step α → Nat × List α
  | s, .stay => s
  | (k, ns), .into a => (k, ns ++ [a])
  | (k, []), .up => (k + 1, [])
  | (k, n :: ns), .up => (k, (n :: ns).dropLast)

def normal (s : List (Step α)) : Nat × List α :=
  s.foldl next (0, [])

/-- The levels that a walk leaves above its start. -/
def climb (s : List (Step α)) : Nat :=
  (normal s).1

def names (s : List (Step α)) : List α :=
  (normal s).2

/-- What the names of a walk add up to. -/
def weight (w : α → Nat) (s : List (Step α)) : Nat :=
  (s.map fun
    | .into a => w a
    | _ => 0).sum

variable {place base ns : List α} {s t : List (Step α)} {a : α} {k : Nat}

@[simp] theorem run_nil : run place [] = some place := by
  cases place <;> rfl

@[simp] theorem run_stay : run place (.stay :: s) = run place s := by
  cases place <;> rfl

@[simp] theorem run_into : run place (.into a :: s) = run (place ++ [a]) s := by
  cases place <;> rfl

@[simp] theorem run_nil_up : run [] (.up :: s) = none := rfl

@[simp] theorem run_concat_up : run (place ++ [a]) (.up :: s) = run place s := by
  cases place with
  | nil => rfl
  | cons b place => rw [List.cons_append, run, ← List.cons_append, List.dropLast_concat]

theorem run_append : run place (s ++ t) = (run place s).bind fun p => run p t := by
  induction s generalizing place with
  | nil => simp
  | cons x s ih =>
    rw [List.cons_append]
    cases x with
    | stay => simpa using ih
    | into a => simpa using ih
    | up =>
      cases place using List.reverseRecOn with
      | nil => rfl
      | append_singleton place b => simpa using ih

theorem run_cons (x : Step α) : run place (x :: s) = (run place [x]).bind fun p => run p s := by
  rw [← run_append, List.singleton_append]

theorem run_intos (ns : List α) : run place (ns.map .into) = some (place ++ ns) := by
  induction ns generalizing place with
  | nil => simp
  | cons n ns ih => simp [ih]

theorem le_foldl_next (x : Nat × List α) (s : List (Step α)) : x.1 ≤ (s.foldl next x).1 := by
  induction s generalizing x with
  | nil => exact Nat.le_refl _
  | cons y s ih =>
    refine Nat.le_trans ?_ (ih (next x y))
    obtain ⟨k, ns⟩ := x
    cases y with
    | stay => exact Nat.le_refl _
    | into a => exact Nat.le_refl _
    | up =>
      cases ns with
      | nil => exact Nat.le_succ _
      | cons n ns => exact Nat.le_refl _

theorem run_take (ns : List α) (s : List (Step α)) (hk : k ≤ base.length) : run (base.take (base.length - k) ++ ns) s =
    if (s.foldl next (k, ns)).1 ≤ base.length then
      some (base.take (base.length - (s.foldl next (k, ns)).1) ++ (s.foldl next (k, ns)).2)
    else none := by
  induction s generalizing k ns with
  | nil => simp [hk]
  | cons x s ih =>
    rw [List.foldl_cons]
    cases x with
    | stay => exact run_stay.trans (ih ns hk)
    | into a =>
      rw [run_into, List.append_assoc]
      exact ih _ hk
    | up =>
      cases ns using List.reverseRecOn with
      | append_singleton ns n =>
        rw [← List.append_assoc, run_concat_up]
        have hn : next (k, ns ++ [n]) .up = (k, ns) := by
          cases ns with
          | nil => rfl
          | cons m ns => rw [List.cons_append, next, ← List.cons_append, List.dropLast_concat]
        rw [hn]
        exact ih ns hk
      | nil =>
        rw [List.append_nil]
        by_cases he : k = base.length
        · have hle := le_foldl_next (next (k, ([] : List α)) .up) s
          have hlt : ¬ (s.foldl next (next (k, []) .up)).1 ≤ base.length := by
            have hs : (next (k, ([] : List α)) .up).1 = k + 1 := rfl
            omega
          rw [if_neg hlt, he, Nat.sub_self, List.take_zero]
          rfl
        · have hlt : base.length - (k + 1) < base.length := by omega
          have hsucc : base.length - k = base.length - (k + 1) + 1 := by omega
          rw [hsucc, List.take_add_one, List.getElem?_eq_getElem hlt, Option.toList_some, run_concat_up]
          have hle : k + 1 ≤ base.length := by omega
          have hrun := ih [] hle
          rwa [List.append_nil] at hrun

/-- A walk leaves so many levels of its start and goes into these names. -/
theorem run_eq (base : List α) (s : List (Step α)) : run base s =
    if climb s ≤ base.length then some (base.take (base.length - climb s) ++ names s) else none := by
  have h := run_take [] s (Nat.zero_le base.length)
  rwa [Nat.sub_zero, List.take_length, List.append_nil] at h

theorem sum_run_le (w : α → Nat) (h : run base s = some place) :
    (place.map w).sum ≤ (base.map w).sum + weight w s := by
  induction s generalizing base with
  | nil =>
    rw [run_nil, Option.some.injEq] at h
    rw [h]
    exact Nat.le_add_right _ _
  | cons x s ih =>
    cases x with
    | stay =>
      have hs := ih (run_stay.symm.trans h)
      simpa [weight] using hs
    | into a =>
      have hs := ih (run_into.symm.trans h)
      simpa [weight, Nat.add_assoc] using hs
    | up =>
      cases base using List.reverseRecOn with
      | nil => cases h
      | append_singleton base b =>
        have hs := ih (run_concat_up.symm.trans h)
        have hw : weight w (.up :: s) = weight w s := by simp [weight]
        rw [hw, List.map_append, List.sum_append]
        omega

theorem mem_run {P : α → Prop} (hbase : ∀ a ∈ base, P a) (hs : ∀ a, .into a ∈ s → P a)
    (h : run base s = some place) : ∀ a ∈ place, P a := by
  induction s generalizing base with
  | nil =>
    rw [run_nil, Option.some.injEq] at h
    rwa [← h]
  | cons x s ih =>
    have hrest : ∀ a, .into a ∈ s → P a := fun a ha => hs a (List.mem_cons_of_mem x ha)
    cases x with
    | stay => exact ih hbase hrest (run_stay.symm.trans h)
    | into a =>
      refine ih ?_ hrest (run_into.symm.trans h)
      intro b hb
      rcases List.mem_append.mp hb with hb | hb
      · exact hbase b hb
      · rw [List.mem_singleton.mp hb]
        exact hs a List.mem_cons_self
    | up =>
      cases base using List.reverseRecOn with
      | nil => cases h
      | append_singleton base b =>
        exact ih (fun a ha => hbase a (List.mem_append_left _ ha)) hrest (run_concat_up.symm.trans h)

theorem mem_names {P : α → Prop} (hs : ∀ a, .into a ∈ s → P a) : ∀ a ∈ names s, P a := by
  have key : ∀ x : Nat × List α, (∀ a ∈ x.2, P a) → ∀ a ∈ (s.foldl next x).2, P a := by
    induction s with
    | nil => exact fun x hx => hx
    | cons y s ih =>
      intro x hx
      refine ih (fun a ha => hs a (List.mem_cons_of_mem y ha)) (next x y) ?_
      obtain ⟨k, ns⟩ := x
      cases y with
      | stay => exact hx
      | into a =>
        intro b hb
        rcases List.mem_append.mp hb with hb | hb
        · exact hx b hb
        · rw [List.mem_singleton.mp hb]
          exact hs a List.mem_cons_self
      | up =>
        cases ns with
        | nil => exact hx
        | cons n ns => exact fun b hb => hx b (List.dropLast_subset _ hb)
  exact key (0, []) nofun

end Ltfs.Lib.Lexical
