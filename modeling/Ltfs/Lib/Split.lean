import Mathlib.Data.List.Basic
import Mathlib.Algebra.Order.Ring.Nat

namespace Ltfs.Split

variable {α : Type} {sep : α} {p q s : List α}

/-- The pieces, each with the separator before it -/
def behind (sep : α) (ps : List (List α)) : List α := ps.flatMap (sep :: ·)

theorem behind_cons (sep : α) (p : List α) (ps : List (List α)) :
    behind sep (p :: ps) = sep :: (p ++ behind sep ps) := List.flatMap_cons

theorem behind_head (ps : List (List α)) : behind sep ps = [] ∨ ∃ r, behind sep ps = sep :: r := by
  cases ps with
  | nil => exact .inl rfl
  | cons p ps => exact .inr ⟨_, behind_cons sep p ps⟩

theorem behind_append (ps qs : List (List α)) : behind sep (ps ++ qs) = behind sep ps ++ behind sep qs :=
  List.flatMap_append

theorem behind_concat (ps : List (List α)) (p : List α) : behind sep (ps ++ [p]) = behind sep ps ++ sep :: p := by
  rw [behind_append, behind_cons]
  simp [behind]

theorem length_behind (ps : List (List α)) :
    (behind sep ps).length = (ps.map fun p => p.length + 1).sum := by
  induction ps with
  | nil => rfl
  | cons p ps ih =>
    rw [behind_cons, List.length_cons, List.length_append, ih, List.map_cons, List.sum_cons]
    omega

/-- The first separator tells the two sides apart. -/
theorem sep_append_inj {a a' b b' : List α} (ha : sep ∉ a) (ha' : sep ∉ a')
    (h : a ++ sep :: b = a' ++ sep :: b') : a = a' ∧ b = b' := by
  induction a generalizing a' with
  | nil =>
    cases a' with
    | nil => exact ⟨rfl, (List.cons.inj h).2⟩
    | cons c a' => exact absurd (List.mem_cons.mpr (.inl (List.cons.inj h).1)) ha'
  | cons c a ih =>
    rw [List.mem_cons, not_or] at ha
    cases a' with
    | nil => exact absurd (List.cons.inj h).1.symm ha.1
    | cons d a' =>
      rw [List.mem_cons, not_or] at ha'
      obtain ⟨hc, hrest⟩ := List.cons.inj h
      obtain ⟨rfl, rfl⟩ := ih ha.2 ha'.2 hrest
      exact ⟨by rw [hc], rfl⟩

/-- So does the last one. -/
theorem append_sep_inj {a a' b b' : List α} (hb : sep ∉ b) (hb' : sep ∉ b')
    (h : a ++ sep :: b = a' ++ sep :: b') : a = a' ∧ b = b' := by
  have hr := congrArg List.reverse h
  simp only [List.reverse_append, List.reverse_cons, List.append_assoc, List.singleton_append] at hr
  obtain ⟨hbr, har⟩ := sep_append_inj (by simpa using hb) (by simpa using hb') hr
  exact ⟨List.reverse_inj.mp har, List.reverse_inj.mp hbr⟩

variable [BEq α] [LawfulBEq α]

/-- A list is its first piece and the others behind it, and no piece holds the separator. -/
theorem splitOn_pieces (sep : α) (s : List α) :
    ∃ p ps, s.splitOn sep = p :: ps ∧ s = p ++ behind sep ps ∧ sep ∉ p ∧ ∀ q ∈ ps, sep ∉ q := by
  induction s with
  | nil => exact ⟨[], [], rfl, rfl, List.not_mem_nil, nofun⟩
  | cons c s ih =>
    obtain ⟨p, ps, hsplit, hs, hp, hps⟩ := ih
    rw [List.splitOn_cons_eq_if_modifyHead, hsplit]
    split_ifs with hc
    · refine ⟨[], p :: ps, rfl, ?_, List.not_mem_nil, List.forall_mem_cons.2 ⟨hp, hps⟩⟩
      rw [List.nil_append, behind_cons, ← hs, eq_of_beq hc]
    · refine ⟨c :: p, ps, rfl, by rw [List.cons_append, ← hs], ?_, hps⟩
      rw [List.mem_cons, not_or]
      exact ⟨fun h => hc (by rw [h, beq_self_eq_true]), hp⟩

theorem splitOn_behind {ps : List (List α)} (hp : sep ∉ p) (hps : ∀ q ∈ ps, sep ∉ q) :
    (p ++ behind sep ps).splitOn sep = p :: ps := by
  induction ps generalizing p with
  | nil =>
    have hnil : behind sep ([] : List (List α)) = [] := rfl
    rw [hnil, List.append_nil, List.splitOn_eq_singleton hp]
  | cons q ps ih =>
    rw [List.forall_mem_cons] at hps
    rw [behind_cons, List.splitOn_append_cons_self, List.splitOn_eq_singleton hp, ih hps.1 hps.2]
    rfl

/-- A list that ends with the separator has an empty piece. -/
theorem nil_mem_splitOn_concat (s : List α) (sep : α) : [] ∈ (s ++ [sep]).splitOn sep := by
  rw [List.splitOn_append_cons_self, List.splitOn_nil]
  exact List.mem_append_right _ List.mem_cons_self

end Ltfs.Split
