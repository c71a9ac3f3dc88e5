import Ltfs.ExtentMap

namespace Ltfs.ExtentOrder

open Format Lib.Cells RawFile RawSpec ExtentMap

variable {bs x n : Nat} {e ext : ExtentInfo} {before passed es : List ExtentInfo} {P : ExtentInfo → Prop}

theorem inOrder_append {a b : List ExtentInfo} :
    InOrder (a ++ b) ↔ InOrder a ∧ InOrder b ∧ ∀ e ∈ a, ∀ f ∈ b, e.fileoffsetEnd ≤ f.fileoffset :=
  List.pairwise_append

theorem inOrder_cons {b : List ExtentInfo} :
    InOrder (e :: b) ↔ (∀ f ∈ b, e.fileoffsetEnd ≤ f.fileoffset) ∧ InOrder b :=
  List.pairwise_cons

/-- A property of extents that survives what adding `ext` can do to them, and that `ext` has. -/
structure Stable (bs : Nat) (ext : ExtentInfo) (P : ExtentInfo → Prop) : Prop where
  front : ∀ e diff, P e → diff < e.bytecount → P (e.truncateFront bs diff)
  back : ∀ e cut, P e → e.fileoffset < cut → cut < e.fileoffsetEnd → P (e.truncateEnd cut)
  grow : ∀ e, P e → e.Adjoins bs ext → P (e.grow ext.bytecount)
  new : P ext

theorem joinOrInsert_forall (h : Stable bs ext P) (he : P e) : ∀ f ∈ joinOrInsert bs e ext, P f := by
  intro f hf
  rw [joinOrInsert] at hf
  split_ifs at hf with hadj
  · rw [List.mem_singleton.1 hf]
    exact h.grow e he hadj
  · simp only [List.mem_cons, List.not_mem_nil, or_false] at hf
    rcases hf with rfl | rfl
    · exact he
    · exact h.new

theorem addExtentWalk_forall (h : Stable bs ext P) (before passed : List ExtentInfo)
    (hbefore : ∀ f ∈ before, P f) (hpassed : ∀ f ∈ passed, P f) :
    ∀ f ∈ addExtentWalk bs ext before passed, P f := by
  induction before generalizing passed with
  | nil => exact List.forall_mem_cons.2 ⟨h.new, hpassed⟩
  | cons e before ih =>
    obtain ⟨he, hbefore⟩ := List.forall_mem_cons.1 hbefore
    have hend : e.fileoffset + e.bytecount = e.fileoffsetEnd := rfl
    have hrev : ∀ f ∈ before.reverse, P f := fun f hf => hbefore f (List.mem_reverse.1 hf)
    rw [addExtentWalk]
    split_ifs with h₁ h₂ h₃ h₄ h₅
    · exact ih passed hbefore hpassed
    · exact ih _ hbefore (List.forall_mem_cons.2 ⟨h.front e _ he (by omega), hpassed⟩)
    · have hcut := h.back e ext.fileoffset he h₃.1 h₃.2
      exact List.forall_mem_append.2 ⟨hrev, List.forall_mem_append.2 ⟨joinOrInsert_forall h hcut, hpassed⟩⟩
    · have hcut := h.back e ext.fileoffset he h₃.1 h₃.2
      have hrest := h.front e (ext.fileoffsetEnd - e.fileoffset) he (by omega)
      exact List.forall_mem_append.2 ⟨hrev, List.forall_mem_append.2 ⟨joinOrInsert_forall h hcut,
        List.forall_mem_cons.2 ⟨hrest, hpassed⟩⟩⟩
    · exact List.forall_mem_append.2 ⟨hrev, List.forall_mem_append.2 ⟨joinOrInsert_forall h he, hpassed⟩⟩
    · exact ih _ hbefore (List.forall_mem_cons.2 ⟨he, hpassed⟩)

/-- The extents of `joinOrInsert` stay between the start of the one and the end of the other. -/
theorem joinOrInsert_between (bs : Nat) (hle : e.fileoffsetEnd ≤ ext.fileoffset) :
    InOrder (joinOrInsert bs e ext) ∧ ∀ f ∈ joinOrInsert bs e ext,
      e.fileoffset ≤ f.fileoffset ∧ f.fileoffsetEnd ≤ ext.fileoffsetEnd := by
  have hend : e.fileoffset + e.bytecount = e.fileoffsetEnd := rfl
  have hext : ext.fileoffset + ext.bytecount = ext.fileoffsetEnd := rfl
  rw [joinOrInsert]
  split_ifs with h
  · have hf : ext.fileoffset = e.fileoffsetEnd := h.1
    have hgrow : (e.grow ext.bytecount).fileoffsetEnd = e.fileoffset + (e.bytecount + ext.bytecount) := rfl
    refine ⟨List.pairwise_singleton _ _, fun f hfm => ?_⟩
    rw [List.mem_singleton.1 hfm]
    exact ⟨Nat.le_refl _, by omega⟩
  · refine ⟨inOrder_cons.2 ⟨by simpa using hle, List.pairwise_singleton _ _⟩, fun f hfm => ?_⟩
    simp only [List.mem_cons, List.not_mem_nil, or_false] at hfm
    rcases hfm with rfl | rfl
    · exact ⟨Nat.le_refl _, by omega⟩
    · exact ⟨by omega, Nat.le_refl _⟩

/-- The extent goes in behind `e`, before everything that starts at its end or later. -/
theorem inOrder_insert (hord : InOrder (before ++ e :: passed)) (hle : e.fileoffsetEnd ≤ ext.fileoffset)
    (hpass : ∀ f ∈ passed, ext.fileoffsetEnd ≤ f.fileoffset) :
    InOrder (before ++ (joinOrInsert bs e ext ++ passed)) := by
  obtain ⟨hbefore, htail, hacross⟩ := inOrder_append.1 hord
  obtain ⟨-, hpassed⟩ := inOrder_cons.1 htail
  obtain ⟨hjo, hj⟩ := joinOrInsert_between bs hle
  refine inOrder_append.2 ⟨hbefore, inOrder_append.2 ⟨hjo, hpassed, ?_⟩, ?_⟩
  · intro f hf g hg
    exact Nat.le_trans (hj f hf).2 (hpass g hg)
  · intro f hf g hg
    obtain hg | hg := List.mem_append.1 hg
    · exact Nat.le_trans (hacross f hf e (by simp)) (hj g hg).1
    · exact hacross f hf g (by simp [hg])

/-- One extent of a list is replaced by a part of itself. -/
theorem InOrder.narrow {e' : ExtentInfo} (h : InOrder (before ++ e :: passed)) (hs : e.fileoffset ≤ e'.fileoffset)
    (he : e'.fileoffsetEnd ≤ e.fileoffsetEnd) : InOrder (before ++ e' :: passed) := by
  obtain ⟨hbefore, htail, hacross⟩ := inOrder_append.1 h
  obtain ⟨hnext, hpassed⟩ := inOrder_cons.1 htail
  refine inOrder_append.2 ⟨hbefore, inOrder_cons.2 ⟨fun f hf => Nat.le_trans he (hnext f hf), hpassed⟩, ?_⟩
  intro f hf g hg
  obtain rfl | hg := List.mem_cons.1 hg
  · exact Nat.le_trans (hacross f hf e (by simp)) hs
  · exact hacross f hf g (by simp [hg])

theorem InOrder.remove (h : InOrder (before ++ e :: passed)) : InOrder (before ++ passed) :=
  List.Pairwise.sublist (List.Sublist.append_left (List.sublist_cons_self e passed) before) h

/-- One extent of a list is replaced by two parts of itself. -/
theorem InOrder.split {a b : ExtentInfo} (h : InOrder (before ++ e :: passed)) (hs : e.fileoffset ≤ a.fileoffset)
    (hab : a.fileoffsetEnd ≤ b.fileoffset) (he : b.fileoffsetEnd ≤ e.fileoffsetEnd) :
    InOrder (before ++ a :: b :: passed) := by
  obtain ⟨hbefore, htail, hacross⟩ := inOrder_append.1 h
  obtain ⟨hnext, hpassed⟩ := inOrder_cons.1 htail
  have hb : b.fileoffset ≤ b.fileoffsetEnd := Nat.le_add_right _ _
  have ha : a.fileoffset ≤ a.fileoffsetEnd := Nat.le_add_right _ _
  have hpast : ∀ f ∈ passed, b.fileoffsetEnd ≤ f.fileoffset := fun f hf => Nat.le_trans he (hnext f hf)
  refine inOrder_append.2 ⟨hbefore, inOrder_cons.2 ⟨?_, inOrder_cons.2 ⟨hpast, hpassed⟩⟩, ?_⟩
  · refine List.forall_mem_cons.2 ⟨hab, fun f hf => ?_⟩
    have := hpast f hf
    omega
  · intro f hf
    have hfe := hacross f hf e (by simp)
    refine List.forall_mem_cons.2 ⟨by omega, List.forall_mem_cons.2 ⟨by omega, fun g hg => ?_⟩⟩
    exact hacross f hf g (by simp [hg])

theorem truncateFront_span {diff : Nat} (bs : Nat) (hd : diff ≤ e.bytecount) :
    (e.truncateFront bs diff).fileoffset = e.fileoffset + diff ∧
      (e.truncateFront bs diff).fileoffsetEnd = e.fileoffsetEnd := by
  refine ⟨rfl, ?_⟩
  simp only [ExtentInfo.truncateFront, ExtentInfo.fileoffsetEnd]
  omega

theorem truncateEnd_end {cut : Nat} (hc : e.fileoffset ≤ cut) : (e.truncateEnd cut).fileoffsetEnd = cut := by
  simp only [ExtentInfo.truncateEnd, ExtentInfo.fileoffsetEnd]
  omega

theorem stable_end (bs : Nat) (hext : ext.fileoffsetEnd ≤ n) : Stable bs ext fun e => e.fileoffsetEnd ≤ n where
  front e diff he hd := by rwa [(truncateFront_span bs (Nat.le_of_lt hd)).2]
  back e cut he hs hc := by
    rw [truncateEnd_end (Nat.le_of_lt hs)]
    exact Nat.le_trans (Nat.le_of_lt hc) he
  grow e he hadj := by
    have hf : ext.fileoffset = e.fileoffset + e.bytecount := hadj.1
    simp only [ExtentInfo.grow, ExtentInfo.fileoffsetEnd] at hext ⊢
    omega
  new := hext

/-- The walk keeps the extents in order. Those it has passed start at the end of the new one or later. -/
theorem addExtentWalk_inOrder (before passed : List ExtentInfo)
    (hord : InOrder (before.reverse ++ passed)) (hpass : ∀ f ∈ passed, ext.fileoffsetEnd ≤ f.fileoffset) :
    InOrder (addExtentWalk bs ext before passed) := by
  induction before generalizing passed with
  | nil => exact inOrder_cons.2 ⟨hpass, hord⟩
  | cons e before ih =>
    have hend : e.fileoffset + e.bytecount = e.fileoffsetEnd := rfl
    have hext : ext.fileoffset + ext.bytecount = ext.fileoffsetEnd := rfl
    rw [List.reverse_cons, List.append_assoc, List.singleton_append] at hord
    rw [addExtentWalk]
    split_ifs with h₁ h₂ h₃ h₄ h₅
    · exact ih passed (InOrder.remove hord) hpass
    · obtain ⟨hstart, hstop⟩ := truncateFront_span bs
        (show ext.fileoffsetEnd - e.fileoffset ≤ e.bytecount by omega)
      refine ih _ (InOrder.narrow hord (by omega) (Nat.le_of_eq hstop)) ?_
      exact List.forall_mem_cons.2 ⟨by omega, hpass⟩
    · have hcut := truncateEnd_end (Nat.le_of_lt h₃.1)
      exact inOrder_insert (InOrder.narrow hord (Nat.le_refl _) (by omega)) (Nat.le_of_eq hcut) hpass
    · have hcut := truncateEnd_end (Nat.le_of_lt h₃.1)
      obtain ⟨hstart, hstop⟩ := truncateFront_span bs
        (show ext.fileoffsetEnd - e.fileoffset ≤ e.bytecount by omega)
      refine inOrder_insert (InOrder.split hord (Nat.le_refl _) (by omega) (Nat.le_of_eq hstop))
        (Nat.le_of_eq hcut) ?_
      exact List.forall_mem_cons.2 ⟨by omega, hpass⟩
    · exact inOrder_insert hord h₅ hpass
    · refine ih (e :: passed) hord (List.forall_mem_cons.2 ⟨by omega, hpass⟩)

/-- A property of extents that survives when they are cut at the end of the file. -/
theorem truncateExtents_forall {length : Nat} (es : List ExtentInfo) (h : ∀ e ∈ es, P e)
    (hcut : ∀ e, P e → e.fileoffset < length → length < e.fileoffsetEnd → P (e.truncateEnd length)) :
    ∀ e ∈ truncateExtents length es, P e := by
  induction es with
  | nil => exact h
  | cons e before ih =>
    obtain ⟨he, hbefore⟩ := List.forall_mem_cons.1 h
    rw [truncateExtents]
    split_ifs with hpast hacross
    · exact ih hbefore
    · rw [not_or] at hpast
      refine List.forall_mem_append.2 ⟨ih hbefore, fun f hf => ?_⟩
      rw [List.mem_singleton.1 hf]
      exact hcut e he (by omega) hacross
    · exact fun f hf => h f (List.mem_reverse.1 hf)

theorem truncateExtents_inOrder (length : Nat) (es : List ExtentInfo) (hord : InOrder es.reverse) :
    InOrder (truncateExtents length es) := by
  induction es with
  | nil => exact hord
  | cons e before ih =>
    have hord' := hord
    rw [List.reverse_cons] at hord'
    obtain ⟨hb, -, hacross⟩ := inOrder_append.1 hord'
    rw [truncateExtents]
    split_ifs with hpast hcut
    · exact ih hb
    · refine inOrder_append.2 ⟨ih hb, List.pairwise_singleton _ _, fun f hf g hg => ?_⟩
      rw [List.mem_singleton.1 hg]
      refine truncateExtents_forall (P := fun f => f.fileoffsetEnd ≤ e.fileoffset) before ?_ ?_ f hf
      · exact fun f hf => hacross f (List.mem_reverse.2 hf) e (by simp)
      · intro f hf hlt hgt
        rw [truncateEnd_end (Nat.le_of_lt hlt)]
        omega
    · exact hord

/-- The extents that are left end at the new end of the file or before. -/
theorem truncateExtents_le (length : Nat) (es : List ExtentInfo) (hord : InOrder es.reverse) :
    ∀ e ∈ truncateExtents length es, e.fileoffsetEnd ≤ length := by
  induction es with
  | nil => exact fun e he => nomatch he
  | cons e before ih =>
    rw [List.reverse_cons] at hord
    obtain ⟨hb, -, hacross⟩ := inOrder_append.1 hord
    rw [truncateExtents]
    split_ifs with hpast hcut
    · exact ih hb
    · refine List.forall_mem_append.2 ⟨ih hb, fun f hf => ?_⟩
      rw [List.mem_singleton.1 hf]
      exact Nat.le_of_eq (truncateEnd_end (by omega))
    · intro f hf
      obtain rfl | hf := List.mem_cons.1 (List.mem_reverse.1 hf)
      · omega
      · have := hacross f (List.mem_reverse.2 hf) e (by simp)
        have : e.fileoffset ≤ e.fileoffsetEnd := Nat.le_add_right _ _
        omega

theorem overlay_truncateExtents_below {length : Nat} (hx : x < length) (es : List ExtentInfo) :
    overlay (place bs) (truncateExtents length es) x = overlay (place bs) es.reverse x := by
  induction es with
  | nil => rfl
  | cons e before ih =>
    rw [truncateExtents, List.reverse_cons, overlay_append, overlay_cons, overlay_nil, Option.or_none]
    split_ifs with hpast hcut
    · rw [ih, place_of_lt (by omega), Option.or_none]
    · rw [overlay_append, overlay_cons, overlay_nil, Option.or_none, ih, place_truncateEnd (Nat.le_of_lt hcut),
        if_pos hx]
    · rw [overlay_append, overlay_cons, overlay_nil, Option.or_none]

/-- Cut at `length`, the extents say the same below and nothing from there on. -/
theorem overlay_truncateExtents (length : Nat) (es : List ExtentInfo) (hord : InOrder es.reverse) (x : Nat) :
    overlay (place bs) (truncateExtents length es) x =
      if x < length then overlay (place bs) es.reverse x else none := by
  split_ifs with hx
  · exact overlay_truncateExtents_below hx es
  · have hle := truncateExtents_le length es hord
    exact overlay_eq_none fun f hf => place_of_ge (Nat.le_trans (hle f hf) (Nat.not_lt.1 hx))

end Ltfs.ExtentOrder
