import Mathlib.Data.List.Perm.Basic

namespace Ltfs.Lib.Ordered

variable {α : Type} (fits : α → α → Prop) [DecidableRel fits]

/-- A list is walked from its end, so it is given reversed: the first member that the new one fits after
takes it, and every member passed on the way has to fit after the new one. -/
def insertBack (x : α) : List α → Option (List α)
  | [] => some [x]
  | y :: l => if fits y x then some (x :: y :: l) else if fits x y then (insertBack x l).map (y :: ·) else none

def insert (x : α) (l : List α) : Option (List α) :=
  (insertBack fits x l.reverse).map List.reverse

variable {fits} {x y : α} {l m : List α}

theorem insertBack_perm (h : insertBack fits x l = some m) : m.Perm (x :: l) := by
  induction l generalizing m with
  | nil =>
    obtain rfl : [x] = m := by simpa [insertBack] using h
    exact List.Perm.refl _
  | cons y l ih =>
    rw [insertBack] at h
    split_ifs at h with hyx hxy
    · obtain rfl := Option.some.inj h
      exact List.Perm.refl _
    · obtain ⟨k, hk, rfl⟩ := Option.map_eq_some_iff.1 h
      exact ((ih hk).cons y).trans (List.Perm.swap x y l)

theorem insert_perm (h : insert fits x l = some m) : m.Perm (x :: l) := by
  obtain ⟨k, hk, rfl⟩ := Option.map_eq_some_iff.1 h
  exact k.reverse_perm.trans ((insertBack_perm hk).trans (l.reverse_perm.cons x))

/-- A new member that fits after the last one goes to the end. -/
theorem insert_last (h : ∀ y, l.getLast? = some y → fits y x) : insert fits x l = some (l ++ [x]) := by
  rcases List.eq_nil_or_concat l with rfl | ⟨k, y, rfl⟩
  · rfl
  · have hy : fits y x := h y (by simp)
    simp [insert, insertBack, hy]

theorem insertBack_pairwise (trans : ∀ {a b c}, fits a b → fits b c → fits a c)
    (hl : l.Pairwise (fun a b => fits b a)) (h : insertBack fits x l = some m) :
    m.Pairwise (fun a b => fits b a) := by
  induction l generalizing m with
  | nil =>
    obtain rfl : [x] = m := by simpa [insertBack] using h
    exact List.pairwise_singleton ..
  | cons y l ih =>
    obtain ⟨hy, hl⟩ := List.pairwise_cons.1 hl
    rw [insertBack] at h
    split_ifs at h with hyx hxy
    · obtain rfl := Option.some.inj h
      refine List.pairwise_cons.2 ⟨?_, List.pairwise_cons.2 ⟨hy, hl⟩⟩
      intro z hz
      rcases List.mem_cons.1 hz with rfl | hz
      · exact hyx
      · exact trans (hy z hz) hyx
    · obtain ⟨k, hk, rfl⟩ := Option.map_eq_some_iff.1 h
      refine List.pairwise_cons.2 ⟨?_, ih hl hk⟩
      intro z hz
      rcases List.mem_cons.1 ((insertBack_perm hk).mem_iff.1 hz) with rfl | hz
      · exact hxy
      · exact hy z hz

theorem insert_pairwise (trans : ∀ {a b c}, fits a b → fits b c → fits a c) (hl : l.Pairwise fits)
    (h : insert fits x l = some m) : m.Pairwise fits := by
  obtain ⟨k, hk, rfl⟩ := Option.map_eq_some_iff.1 h
  apply List.pairwise_reverse.2
  refine insertBack_pairwise trans ?_ hk
  exact List.pairwise_reverse.2 hl

/-- Only how the members of the list stand to the new one decides where it goes. -/
theorem insertBack_congr {fits' : α → α → Prop} [DecidableRel fits'] (h : ∀ y ∈ l, (fits y x ↔ fits' y x))
    (h' : ∀ y ∈ l, (fits x y ↔ fits' x y)) : insertBack fits x l = insertBack fits' x l := by
  induction l with
  | nil => rfl
  | cons y l ih =>
    have hl := ih (fun z hz => h z (List.mem_cons_of_mem _ hz)) (fun z hz => h' z (List.mem_cons_of_mem _ hz))
    simp only [insertBack, h y List.mem_cons_self, h' y List.mem_cons_self, hl]

theorem insert_congr {fits' : α → α → Prop} [DecidableRel fits'] (h : ∀ y ∈ l, (fits y x ↔ fits' y x))
    (h' : ∀ y ∈ l, (fits x y ↔ fits' x y)) : insert fits x l = insert fits' x l := by
  have hl : insertBack fits x l.reverse = insertBack fits' x l.reverse := by
    apply insertBack_congr
    · exact fun y hy => h y (List.mem_reverse.1 hy)
    · exact fun y hy => h' y (List.mem_reverse.1 hy)
  rw [insert, insert, hl]

end Ltfs.Lib.Ordered
