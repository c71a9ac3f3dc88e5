import Mathlib.Data.List.Nodup

namespace Ltfs.Lib.Keyed

variable {ε κ : Type} (key : ε → κ)

/-- No two entries have the same key. -/
def Distinct (l : List ε) : Prop := (l.map key).Nodup

theorem distinct_cons {key : ε → κ} {e : ε} {l : List ε} :
    Distinct key (e :: l) ↔ key e ∉ l.map key ∧ Distinct key l :=
  List.nodup_cons

variable [DecidableEq κ]

/-- The first entry with the key `k` -/
def seek (k : κ) (l : List ε) : Option ε := l.find? (key · = k)

/-- The first entry with the key `k` becomes `f` of it. -/
def modify (k : κ) (f : ε → ε) : List ε → List ε
  | [] => []
  | e :: l => if key e = k then f e :: l else e :: modify k f l

/-- The first entry with the key `k` is taken out. -/
def erase (k : κ) : List ε → List ε
  | [] => []
  | e :: l => if key e = k then l else e :: erase k l

/-- Every entry with the key of `e` becomes `e`, which is put at the end if there is none. -/
def put (e : ε) (l : List ε) : List ε :=
  if l.any (key · = key e) then l.map fun x => if key x = key e then e else x else l ++ [e]

/-- All the entries with the key `k` are taken out. -/
def remove (k : κ) (l : List ε) : List ε := l.filter (key · ≠ k)

variable {key} {k k' : κ} {f g : ε → ε} {e : ε} {l : List ε}

@[simp] theorem seek_nil : seek key k [] = none := rfl

theorem seek_cons : seek key k (e :: l) = if key e = k then some e else seek key k l := by
  rw [seek, List.find?_cons]
  by_cases h : key e = k
  · simp [h]
  · simp [h, seek]

theorem seek_key (h : seek key k l = some e) : key e = k := by simpa using List.find?_some h

theorem seek_eq_none : seek key k l = none ↔ k ∉ l.map key := by
  rw [seek, List.find?_eq_none]
  simp

theorem modify_map (hf : ∀ e, key (f e) = key e) (k : κ) (l : List ε) : (modify key k f l).map key = l.map key := by
  induction l with
  | nil => rfl
  | cons e l ih =>
    rw [modify]
    split_ifs
    · rw [List.map_cons, List.map_cons, hf]
    · rw [List.map_cons, List.map_cons, ih]

theorem Distinct.modify (h : Distinct key l) (hf : ∀ e, key (f e) = key e) (k : κ) : Distinct key (modify key k f l) := by
  rw [Distinct, modify_map hf]
  exact h

theorem seek_modify (hf : ∀ e, key (f e) = key e) (k k' : κ) (l : List ε) :
    seek key k' (modify key k f l) = if k' = k then (seek key k l).map f else seek key k' l := by
  induction l with
  | nil => simp [modify]
  | cons e l ih =>
    rw [modify, seek_cons, seek_cons]
    by_cases he : key e = k
    · rw [if_pos he, seek_cons, hf, if_pos he]
      by_cases hk : k' = k
      · rw [if_pos hk, if_pos (he.trans hk.symm), Option.map_some]
      · rw [if_neg hk, if_neg fun h => hk (h.symm.trans he), if_neg fun h => hk (h.symm.trans he)]
    · rw [if_neg he, seek_cons, ih, if_neg he]
      by_cases hk : k' = k
      · rw [if_pos hk, if_pos hk, if_neg fun h => he (h.trans hk)]
      · rw [if_neg hk, if_neg hk]

theorem modify_modify (hf : ∀ e, key (f e) = key e) (k : κ) (l : List ε) :
    modify key k g (modify key k f l) = modify key k (g ∘ f) l := by
  induction l with
  | nil => rfl
  | cons e l ih =>
    rw [modify, modify]
    by_cases he : key e = k
    · rw [if_pos he, if_pos he, modify, if_pos ((hf e).trans he)]
      rfl
    · rw [if_neg he, if_neg he, modify, if_neg he, ih]

theorem erase_modify (hf : ∀ e, key (f e) = key e) (k : κ) (l : List ε) :
    erase key k (modify key k f l) = erase key k l := by
  induction l with
  | nil => rfl
  | cons e l ih =>
    rw [modify, erase]
    by_cases he : key e = k
    · rw [if_pos he, if_pos he, erase, if_pos ((hf e).trans he)]
    · rw [if_neg he, if_neg he, erase, if_neg he, ih]

theorem erase_sublist (k : κ) (l : List ε) : (erase key k l).Sublist l := by
  induction l with
  | nil => exact List.Sublist.refl _
  | cons e l ih =>
    rw [erase]
    split_ifs
    · exact List.sublist_cons_self e l
    · exact ih.cons_cons e

theorem Distinct.erase (h : Distinct key l) (k : κ) : Distinct key (erase key k l) :=
  List.Nodup.sublist ((erase_sublist k l).map key) h

theorem seek_erase (h : Distinct key l) (k k' : κ) :
    seek key k' (erase key k l) = if k' = k then none else seek key k' l := by
  induction l with
  | nil => simp [erase]
  | cons e l ih =>
    obtain ⟨he, hl⟩ := distinct_cons.1 h
    rw [erase, seek_cons]
    by_cases hek : key e = k
    · rw [if_pos hek]
      by_cases hk : k' = k
      · rw [if_pos hk, seek_eq_none, hk, ← hek]
        exact he
      · rw [if_neg hk, if_neg fun h => hk (h.symm.trans hek)]
    · rw [if_neg hek, seek_cons, ih hl]
      by_cases hk : k' = k
      · rw [if_pos hk, if_pos hk, if_neg fun h => hek (h.trans hk)]
      · rw [if_neg hk, if_neg hk]

theorem erase_ne (h : seek key k l ≠ none) : erase key k l ≠ l := by
  intro heq
  have hlen := congrArg List.length heq
  induction l with
  | nil => exact h rfl
  | cons e l ih =>
    rw [erase] at heq hlen
    split_ifs at heq hlen with he
    · simp at hlen
    · rw [seek_cons, if_neg he] at h
      rw [List.length_cons, List.length_cons] at hlen
      exact ih h (List.cons.inj heq).2 (by omega)

theorem seek_append (k : κ) (l l' : List ε) : seek key k (l ++ l') = (seek key k l).or (seek key k l') :=
  List.find?_append

theorem seek_remove (k k' : κ) (l : List ε) :
    seek key k' (remove key k l) = if k' = k then none else seek key k' l := by
  induction l with
  | nil => simp [remove]
  | cons e l ih =>
    rw [remove] at ih ⊢
    rw [seek_cons]
    by_cases he : key e = k
    · rw [List.filter_cons_of_neg (by simpa using he), ih]
      by_cases hk : k' = k
      · rw [if_pos hk, if_pos hk]
      · rw [if_neg hk, if_neg hk, if_neg fun h => hk (h.symm.trans he)]
    · rw [List.filter_cons_of_pos (by simpa using he), seek_cons, ih]
      by_cases hk : k' = k
      · rw [if_pos hk, if_pos hk, if_neg fun h => he (h.trans hk)]
      · rw [if_neg hk, if_neg hk]

theorem Distinct.remove (h : Distinct key l) (k : κ) : Distinct key (remove key k l) :=
  List.Nodup.sublist (List.filter_sublist.map key) h

theorem seek_replace (e : ε) (k : κ) (l : List ε) :
    seek key k (l.map fun x => if key x = key e then e else x) =
      if k = key e then (seek key k l).map fun _ => e else seek key k l := by
  induction l with
  | nil => simp
  | cons x l ih =>
    rw [List.map_cons, seek_cons, seek_cons, ih]
    by_cases hx : key x = key e
    · by_cases hk : k = key e
      · simp [hx, hk]
      · have hne : key e ≠ k := fun h => hk h.symm
        simp [hx, hk, hne]
    · by_cases hk : k = key e
      · simp [hx, hk]
      · simp [hx, hk]

theorem any_key : l.any (key · = k) = true ↔ k ∈ l.map key := by
  simp

theorem seek_put (e : ε) (k : κ) (l : List ε) :
    seek key k (put key e l) = if k = key e then some e else seek key k l := by
  by_cases hany : l.any (key · = key e) = true
  · rw [put, if_pos hany, seek_replace]
    by_cases hk : k = key e
    · rw [if_pos hk, if_pos hk, hk]
      cases hs : seek key (key e) l with
      | none => exact absurd (any_key.mp hany) (seek_eq_none.mp hs)
      | some x => rfl
    · rw [if_neg hk, if_neg hk]
  · rw [put, if_neg hany, seek_append, seek_cons, seek_nil]
    by_cases hk : k = key e
    · rw [if_pos hk, if_pos hk.symm, hk, seek_eq_none.mpr fun h => hany (any_key.mpr h)]
      rfl
    · rw [if_neg hk, if_neg fun h => hk h.symm, Option.or_none]

theorem Distinct.put (h : Distinct key l) (e : ε) : Distinct key (put key e l) := by
  by_cases hany : l.any (key · = key e) = true
  · rw [Lib.Keyed.put, if_pos hany]
    have hkeys : (l.map fun x => if key x = key e then e else x).map key = l.map key := by
      rw [List.map_map]
      apply List.map_congr_left
      intro x _
      by_cases hx : key x = key e <;> simp [hx]
    rw [Distinct, hkeys]
    exact h
  · rw [Lib.Keyed.put, if_neg hany, Distinct, List.map_append]
    refine List.nodup_append'.mpr ⟨h, List.nodup_singleton _, ?_⟩
    intro k hk hk'
    obtain rfl := List.mem_singleton.mp hk'
    exact hany (any_key.mpr hk)

end Ltfs.Lib.Keyed
