import Ltfs.RawSpec

namespace Ltfs.ExtentMap

open Format Lib.Cells RawFile RawSpec

variable {bs x : Nat} {e ext : ExtentInfo} {before passed es : List ExtentInfo}

theorem overlay_place_joinOrInsert (hb : 0 < bs) :
    overlay (place bs) (joinOrInsert bs e ext) x = (place bs e x).or (place bs ext x) := by
  rw [joinOrInsert]
  split_ifs with h
  · rw [overlay_cons, overlay_nil, Option.or_none, place_grow hb h]
  · rw [overlay_cons, overlay_cons, overlay_nil, Option.or_none]

theorem place_eq_some_iff : (∃ y, place bs e x = some y) ↔ e.fileoffset ≤ x ∧ x < e.fileoffsetEnd := by
  rw [place]
  split_ifs with h <;> simp [h]

/-- An extent behind others that end before it starts. -/
theorem overlay_insert (hb : 0 < bs) (hbefore : ∀ f ∈ before, f.fileoffsetEnd ≤ ext.fileoffset)
    (he : e.fileoffsetEnd ≤ ext.fileoffset) (passed : List ExtentInfo) :
    overlay (place bs) (before ++ (joinOrInsert bs e ext ++ passed)) x =
      (place bs ext x).or (overlay (place bs) (before ++ e :: passed) x) := by
  rw [overlay_append, overlay_append, overlay_place_joinOrInsert hb, overlay_append, overlay_cons]
  cases hx : place bs ext x with
  | none => rw [Option.or_none, Option.none_or]
  | some y =>
    obtain ⟨hle, -⟩ := place_eq_some_iff.1 ⟨y, hx⟩
    have hblank : overlay (place bs) before x = none :=
      overlay_eq_none fun f hf => place_of_ge (Nat.le_trans (hbefore f hf) hle)
    rw [hblank, place_of_ge (Nat.le_trans he hle)]
    rfl

/-- Extents that differ only where the new one is. -/
theorem or_overlay_congr {a b : List ExtentInfo}
    (h : x < ext.fileoffset ∨ ext.fileoffsetEnd ≤ x → overlay (place bs) a x = overlay (place bs) b x)
    (rest : List ExtentInfo) :
    (place bs ext x).or (overlay (place bs) (rest ++ a) x) =
      (place bs ext x).or (overlay (place bs) (rest ++ b) x) := by
  cases hx : place bs ext x with
  | some y => rfl
  | none =>
    have hout : x < ext.fileoffset ∨ ext.fileoffsetEnd ≤ x := by
      by_contra hin
      rw [not_or, Nat.not_lt, Nat.not_le] at hin
      obtain ⟨y, hy⟩ := (@place_eq_some_iff bs x ext).2 hin
      rw [hx] at hy
      exact nomatch hy
    rw [overlay_append, overlay_append, h hout]

/-- The walk lays the new extent over the old ones. That the old ones are in order is only needed for those
before the place where the extent goes. -/
theorem overlay_addExtentWalk (hb : 0 < bs) (before passed : List ExtentInfo)
    (hord : InOrder before.reverse) :
    overlay (place bs) (addExtentWalk bs ext before passed) x =
      (place bs ext x).or (overlay (place bs) (before.reverse ++ passed) x) := by
  induction before generalizing passed with
  | nil => rw [addExtentWalk, List.reverse_nil, List.nil_append, overlay_cons]
  | cons e before ih =>
    rw [List.reverse_cons] at hord
    obtain ⟨hbefore, -, hacross⟩ := List.pairwise_append.1 hord
    have hbe : ∀ f ∈ before.reverse, f.fileoffsetEnd ≤ e.fileoffset := fun f hf => hacross f hf e (by simp)
    have hend : e.fileoffset + e.bytecount = e.fileoffsetEnd := rfl
    have hext : ext.fileoffset + ext.bytecount = ext.fileoffsetEnd := rfl
    rw [addExtentWalk, List.reverse_cons, List.append_assoc, List.singleton_append]
    split_ifs with h₁ h₂ h₃ h₄ h₅
    · -- the entry is deleted
      rw [ih _ hbefore]
      apply or_overlay_congr
      rintro (hx | hx)
      · rw [overlay_cons, place_of_lt (by omega), Option.none_or]
      · rw [overlay_cons, place_of_ge (by omega), Option.none_or]
    · -- the entry loses its beginning
      rw [ih _ hbefore]
      apply or_overlay_congr
      intro hx
      rw [overlay_cons, overlay_cons, place_truncateFront hb (by omega)]
      rcases hx with hx | hx
      · rw [if_pos (by omega), place_of_lt (by omega)]
      · rw [if_neg (by omega)]
    · -- the entry loses its end
      have hcut : (e.truncateEnd ext.fileoffset).fileoffsetEnd = ext.fileoffset := by
        simp only [ExtentInfo.truncateEnd, ExtentInfo.fileoffsetEnd]
        omega
      rw [overlay_insert hb (fun f hf => Nat.le_trans (hbe f hf) (by omega)) (by omega)]
      apply or_overlay_congr
      intro hx
      rw [overlay_cons, overlay_cons, place_truncateEnd (by omega)]
      rcases hx with hx | hx
      · rw [if_pos hx]
      · rw [if_neg (by omega), place_of_ge (by omega)]
    · -- the entry is split around the new extent
      have hcut : (e.truncateEnd ext.fileoffset).fileoffsetEnd = ext.fileoffset := by
        simp only [ExtentInfo.truncateEnd, ExtentInfo.fileoffsetEnd]
        omega
      rw [overlay_insert hb (fun f hf => Nat.le_trans (hbe f hf) (by omega)) (by omega)]
      apply or_overlay_congr
      intro hx
      rw [overlay_cons, overlay_cons, overlay_cons, place_truncateEnd (by omega),
        place_truncateFront hb (by omega)]
      rcases hx with hx | hx
      · rw [if_pos hx, if_pos (by omega), Option.none_or]
      · rw [if_neg (by omega), if_neg (by omega), Option.none_or]
    · exact overlay_insert hb (fun f hf => Nat.le_trans (hbe f hf) (by omega)) h₅ passed
    · exact ih (e :: passed) hbefore

end Ltfs.ExtentMap
