import Ltfs.Records

namespace Ltfs.Constructs

open Format Lib.Log Records

variable {rs ws ds : List Record} {b c : Nat} {img : Image}

/-- A document that only lacks its closing filemark. -/
def Dangling (rs : List Record) : Prop :=
  ∃ img : Image, .filemark :: img.records <:+ rs

/-- The partition goes on with something other than a block of a document. -/
def Fresh (ws : List Record) : Prop :=
  ∀ img k, ws.head? ≠ some (.index img k)

theorem records_head (img : Image) {x a : List Record} (h : img.records = x ++ a) (ha : a ≠ []) :
    ∃ k, a.head? = some (.index img k) := by
  have hmem : ∀ r ∈ a, ∃ k, r = .index img k := by
    intro r hr
    have : r ∈ img.records := h ▸ List.mem_append_right x hr
    simp only [Image.records, List.mem_map, List.mem_range] at this
    obtain ⟨k, -, rfl⟩ := this
    exact ⟨k, rfl⟩
  obtain ⟨r, l, rfl⟩ := List.exists_cons_of_ne_nil ha
  obtain ⟨k, rfl⟩ := hmem r (by simp)
  exact ⟨k, rfl⟩

/-- A construct does not reach over the end of what was recorded before, unless that ended in a document
without its closing filemark. -/
theorem holds_append (hd : ¬ Dangling rs) (hw : Fresh ws) (h : Holds (rs ++ ws) c (construct img)) :
    Holds rs c (construct img) ∨ ∃ a, c = rs.length + a ∧ Holds ws a (construct img) := by
  obtain ⟨pre, post, heq, rfl⟩ := h
  obtain ⟨a, rfl, rfl⟩ | ⟨c', rfl, h'⟩ := List.append_eq_append_iff.mp heq
  · exact .inr ⟨a.length, by simp, ⟨a, post, rfl, rfl⟩⟩
  · obtain ⟨a, rfl, rfl⟩ | ⟨c'', h'', rfl⟩ := List.append_eq_append_iff.mp h'
    · exact .inl ⟨pre, a, rfl, rfl⟩
    · cases c' with
      | nil => exact .inr ⟨0, by simp, ⟨[], post, by simpa using h''.symm, rfl⟩⟩
      | cons r x =>
        cases c'' with
        | nil => exact .inl ⟨pre, [], by simpa using h''.symm, rfl⟩
        | cons s y =>
          simp only [construct, List.cons_append, List.cons.injEq] at h''
          obtain ⟨rfl, h''⟩ := h''
          exfalso
          obtain ⟨a, hx, hy⟩ | ⟨a, hx, hy⟩ := List.append_eq_append_iff.mp h''
          · cases a with
            | nil =>
              exact hd ⟨img, pre, by simpa using hx.symm⟩
            | cons t a =>
              simp at hy
          · cases a with
            | nil =>
              refine hd ⟨img, pre, ?_⟩
              simp [hx]
            | cons t a =>
              obtain ⟨k, hk⟩ := records_head img hx (by simp)
              simp only [List.cons_append, List.cons.injEq] at hy
              refine hw img k ?_
              simpa [hy.1] using hk

theorem filemark_not_mem_records (img : Image) : .filemark ∉ img.records := by
  simp [Image.records]

theorem filemark_not_mem_take (img : Image) (k : Nat) : .filemark ∉ img.records.take k :=
  fun h => filemark_not_mem_records img (List.mem_of_mem_take h)

theorem count_filemark_construct (img : Image) : (construct img).count .filemark = 2 := by
  simp [construct, List.count_eq_zero_of_not_mem (filemark_not_mem_records img)]

/-- A construct needs two filemarks. -/
theorem not_holds_of_count (h : ws.count .filemark < 2) : ¬ Holds ws c (construct img) := by
  rintro ⟨pre, post, rfl, -⟩
  simp only [List.count_append, count_filemark_construct] at h
  omega

/-- A construct holds no other one. -/
theorem holds_construct {img' : Image} (h : Holds (construct img) c (construct img')) :
    c = 0 ∧ img' = img := by
  obtain ⟨pre, post, heq, rfl⟩ := h
  have hcount := congrArg (List.count .filemark) heq
  simp only [List.count_append, count_filemark_construct] at hcount
  have hpre : pre = [] := by
    cases pre with
    | nil => rfl
    | cons r l =>
      simp only [construct, List.cons_append, List.cons.injEq] at heq
      rw [← heq.1, List.count_cons_self] at hcount
      omega
  subst hpre
  refine ⟨rfl, ?_⟩
  have hhead := congrArg (fun l : List Record => l[1]?) heq
  have h0 : ∀ img : Image, ∀ post, (construct img ++ post)[1]? = some (.index img 0) := by
    intro img post
    have := img.blocks_pos
    simp only [construct, List.cons_append, List.getElem?_cons_succ]
    rw [List.append_assoc, List.getElem?_append_left (by simpa using this)]
    simp [Image.records, this]
  simp only [List.nil_append, h0] at hhead
  have h1 := h0 img []
  rw [List.append_nil] at h1
  rw [h1] at hhead
  injection hhead with hhead
  injection hhead with hhead
  exact hhead.symm

/-- What follows the last filemark is determined. -/
theorem suffix_filemark_unique {as bs : List Record} (h : .filemark :: as <:+ rs ++ .filemark :: bs)
    (ha : .filemark ∉ as) (hb : .filemark ∉ bs) : as = bs := by
  obtain ⟨t, ht⟩ := h
  obtain ⟨a, -, heq⟩ | ⟨a, -, heq⟩ := List.append_eq_append_iff.mp ht
  · cases a with
    | nil => simpa using heq
    | cons r l =>
      simp only [List.cons_append, List.cons.injEq] at heq
      exact absurd (heq.2 ▸ (by simp : Record.filemark ∈ l ++ .filemark :: bs)) ha
  · cases a with
    | nil => simpa using heq.symm
    | cons r l =>
      simp only [List.cons_append, List.cons.injEq] at heq
      exact absurd (heq.2 ▸ (by simp : Record.filemark ∈ l ++ .filemark :: as)) hb

theorem Dangling.getLast (h : Dangling rs) : ∃ img k, rs.getLast? = some (.index img k) := by
  obtain ⟨img, t, rfl⟩ := h
  have hpos := img.blocks_pos
  refine ⟨img, img.blocks - 1, ?_⟩
  have hrec : img.records = img.records.take (img.blocks - 1) ++ [.index img (img.blocks - 1)] := by
    rw [← records_take_succ img (by omega), Nat.sub_add_cancel hpos, records_take_blocks]
  rw [hrec, ← List.cons_append, ← List.append_assoc, List.getLast?_concat]

/-- Nothing dangles behind a complete construct. -/
theorem not_dangling_construct (rs : List Record) (img : Image) : ¬ Dangling (rs ++ construct img) := by
  intro h
  obtain ⟨img', k, hk⟩ := h.getLast
  rw [construct, ← List.cons_append, ← List.append_assoc, List.getLast?_concat] at hk
  cases hk

/-- Nothing dangles behind a document that broke off before its last block. -/
theorem not_dangling_take (rs : List Record) {k : Nat} (hk : k < img.blocks) :
    ¬ Dangling (rs ++ .filemark :: img.records.take k) := by
  rintro ⟨img', h⟩
  have heq := suffix_filemark_unique h (filemark_not_mem_records img') (filemark_not_mem_take img k)
  have hlen := congrArg List.length heq
  simp only [records_length, List.length_take] at hlen
  have hpos := img'.blocks_pos
  have hhead := congrArg (fun l : List Record => l[0]?) heq
  simp only [Image.records, List.getElem?_take, List.getElem?_map] at hhead
  rw [List.getElem?_range hpos, List.getElem?_range img.blocks_pos, if_pos (by omega)] at hhead
  injection hhead with hhead
  injection hhead with hhead
  rw [hhead] at hlen
  omega

theorem not_dangling_concat (rs : List Record) {r : Record} (hr : ∀ img k, r ≠ .index img k) :
    ¬ Dangling (rs ++ [r]) := by
  intro h
  obtain ⟨img', k, hk⟩ := h.getLast
  rw [List.getLast?_concat] at hk
  exact hr img' k (by injection hk)

/-- A write makes no other construct than those it brings along. -/
theorem indexAt_record (hd : ¬ Dangling (rs.take c)) (hc : c ≤ rs.length) (hw : Fresh ws) (hne : ws ≠ [])
    (h : IndexAt (record rs c ws) b img) :
    IndexAt rs b img ∨ ∃ a, b = c + a + 1 ∧ Holds ws a (construct img) := by
  rw [record_ne_nil hne] at h
  obtain ⟨x, rfl, hx⟩ := h
  obtain hold | ⟨a, rfl, hnew⟩ := holds_append hd hw hx
  · left
    have := hold.append (rs.drop c)
    rw [List.take_append_drop] at this
    exact ⟨x, rfl, this⟩
  · right
    exact ⟨a, by simp [Nat.min_eq_left hc], hnew⟩

theorem indexAt_record_construct {img' : Image} (hd : ¬ Dangling (rs.take c)) (hc : c ≤ rs.length)
    (h : IndexAt (record rs c (construct img')) b img) : IndexAt rs b img ∨ b = c + 1 ∧ img = img' := by
  have hfresh : Fresh (construct img') := fun img k hk => by cases hk
  obtain hold | ⟨a, rfl, hnew⟩ := indexAt_record hd hc hfresh (by simp [construct]) h
  · exact .inl hold
  · obtain ⟨rfl, rfl⟩ := holds_construct hnew
    exact .inr ⟨rfl, rfl⟩

theorem indexAt_record_data (hd : ¬ Dangling (rs.take c)) (hc : c ≤ rs.length)
    (hw : ∀ r ∈ ws, ∃ d, r = .data d) (h : IndexAt (record rs c ws) b img) : IndexAt rs b img := by
  by_cases hne : ws = []
  · subst hne
    exact h
  · have hfresh : Fresh ws := by
      intro img k hk
      obtain ⟨d, hd⟩ := hw _ (List.mem_of_mem_head? hk)
      cases hd
    have hcount : ws.count .filemark = 0 := by
      refine List.count_eq_zero_of_not_mem fun hm => ?_
      obtain ⟨d, hd⟩ := hw _ hm
      cases hd
    obtain hold | ⟨a, -, hnew⟩ := indexAt_record hd hc hfresh hne h
    · exact hold
    · exact absurd hnew (not_holds_of_count (by omega))

/-- The complete index whose first block is `b`, if there is one. -/
def constructAt (rs : List Record) (b : Nat) : Option Image :=
  match rs[b]? with
  | some (.index img _) => if 0 < b ∧ construct img <+: rs.drop (b - 1) then some img else none
  | _ => none

theorem holds_iff_prefix : Holds rs c (construct img) ↔ construct img <+: rs.drop c := by
  constructor
  · rintro ⟨pre, post, rfl, rfl⟩
    simp
  · rintro ⟨post, hpost⟩
    refine ⟨rs.take c, post, by rw [hpost, List.take_append_drop], ?_⟩
    have hlen := congrArg List.length hpost
    simp only [List.length_append, construct_length, List.length_drop] at hlen
    simp only [List.length_take]
    omega

theorem IndexAt.block (h : IndexAt rs b img) : rs[b]? = some (.index img 0) := by
  obtain ⟨c, rfl, h⟩ := h
  rw [h.getElem? (k := 1) (by simp)]
  have := img.blocks_pos
  simp only [construct, List.getElem?_cons_succ]
  rw [List.getElem?_append_left (by simpa using this)]
  simp [Image.records, this]

theorem constructAt_eq_some : constructAt rs b = some img ↔ IndexAt rs b img := by
  constructor
  · intro h
    unfold constructAt at h
    split at h
    · split at h
      · rename_i hc
        injection h with h
        subst h
        exact ⟨b - 1, by omega, holds_iff_prefix.mpr hc.2⟩
      · cases h
    · cases h
  · intro h
    unfold constructAt
    rw [IndexAt.block h]
    obtain ⟨c, rfl, h⟩ := h
    simp only
    rw [if_pos ⟨by omega, holds_iff_prefix.mp h⟩]

instance : Decidable (IndexAt rs b img) :=
  decidable_of_iff _ constructAt_eq_some

end Ltfs.Constructs
