import Ltfs.Lib.MergeRuns
import Mathlib.Algebra.Order.Ring.Nat

namespace Ltfs.DirSort

open Ltfs.Lib

/-- `struct name_list`, an entry of the hash of a directory. -/
structure NameList (δ : Type) where
  uid : BitVec 64
  d : δ
  deriving DecidableEq

variable {δ : Type}

/-- The difference of the numbers, as the `int` that is returned. -/
def fsHashSortByUid (a b : NameList δ) : Int :=
  ((a.uid - b.uid).setWidth 32).toInt

/-- `HASH_SORT(child_list, fs_hash_sort_by_uid)`, which stands before the listing of a directory
(`ltfs_fsops_readdir`) and before its entries are written to the index (`_xml_write_dirtree`). -/
def hashSort (childList : List (NameList δ)) : Option (List (NameList δ)) :=
  MergeRuns.sort (fun a b => decide (fsHashSortByUid a b ≤ 0)) childList

/-- In whatever order the hash has its entries, they come out by increasing number. -/
def Sorts (l : List (NameList δ)) : Prop :=
  ∀ l', l'.Perm l → ∃ r, hashSort l' = some r ∧ r.Perm l ∧ r.Pairwise fun a b => a.uid < b.uid

/-- The comparison is that of the numbers. -/
def Compares (l : List (NameList δ)) : Prop :=
  ∀ a ∈ l, ∀ b ∈ l, (fsHashSortByUid a b < 0 ↔ a.uid < b.uid) ∧ (0 < fsHashSortByUid a b ↔ b.uid < a.uid)

/-- What a smaller number has to be to a larger one. -/
def Near (a b : BitVec 64) : Prop :=
  0 < (b.toNat - a.toNat) % 2 ^ 32 ∧ (b.toNat - a.toNat) % 2 ^ 32 < 2 ^ 31

instance (a b : BitVec 64) : Decidable (Near a b) :=
  inferInstanceAs (Decidable (_ ∧ _))

variable {a b : NameList δ} {l r : List (NameList δ)}

theorem toNat_low (a b : NameList δ) :
    ((a.uid - b.uid).setWidth 32).toNat = (2 ^ 64 - b.uid.toNat + a.uid.toNat) % 2 ^ 32 := by
  rw [BitVec.toNat_setWidth, BitVec.toNat_sub]
  omega

theorem compare_pos : 0 < fsHashSortByUid a b ↔ 0 < (2 ^ 64 - b.uid.toNat + a.uid.toNat) % 2 ^ 32 ∧
    (2 ^ 64 - b.uid.toNat + a.uid.toNat) % 2 ^ 32 < 2 ^ 31 := by
  rw [fsHashSortByUid, BitVec.toInt, toNat_low]
  split <;> omega

theorem compare_neg : fsHashSortByUid a b < 0 ↔ 2 ^ 31 ≤ (2 ^ 64 - b.uid.toNat + a.uid.toNat) % 2 ^ 32 := by
  rw [fsHashSortByUid, BitVec.toInt, toNat_low]
  split <;> omega

/-- The larger number is found to be the larger one just if the two are near. -/
theorem compare_later (h : a.uid < b.uid) : 0 < fsHashSortByUid b a ↔ Near a.uid b.uid := by
  have hb := b.uid.isLt
  rw [BitVec.lt_def] at h
  have hdiff : (2 ^ 64 - a.uid.toNat + b.uid.toNat) % 2 ^ 32 = (b.uid.toNat - a.uid.toNat) % 2 ^ 32 := by omega
  rw [compare_pos, hdiff]
  rfl

theorem compare_earlier (h : a.uid < b.uid) (hnear : Near a.uid b.uid) : fsHashSortByUid a b < 0 := by
  have ha := a.uid.isLt
  have hb := b.uid.isLt
  obtain ⟨hpos, hlt⟩ := hnear
  rw [BitVec.lt_def] at h
  rw [compare_neg]
  omega

theorem compare_same (h : a.uid = b.uid) : fsHashSortByUid a b = 0 := by
  rw [fsHashSortByUid, h, BitVec.sub_self]
  rfl

theorem compares_of_near (h : ∀ a ∈ l, ∀ b ∈ l, a.uid < b.uid → Near a.uid b.uid) : Compares l := by
  intro a ha b hb
  rcases Nat.lt_trichotomy a.uid.toNat b.uid.toNat with hlt | heq | hgt
  · have hneg := compare_earlier hlt (h a ha b hb hlt)
    have hnot : ¬ b.uid < a.uid := Nat.lt_asymm hlt
    exact ⟨iff_of_true hneg hlt, iff_of_false (by omega) hnot⟩
  · have hsame : a.uid = b.uid := BitVec.eq_of_toNat_eq heq
    have hzero := compare_same hsame
    rw [hzero, hsame]
    exact ⟨iff_of_false (by omega) (BitVec.lt_irrefl _), iff_of_false (by omega) (BitVec.lt_irrefl _)⟩
  · have hpos := (compare_later hgt).mpr (h b hb a ha hgt)
    have hnot : ¬ a.uid < b.uid := Nat.lt_asymm hgt
    exact ⟨iff_of_false (by omega) hnot, iff_of_true hpos hgt⟩

theorem near_of_compares (h : Compares l) : ∀ a ∈ l, ∀ b ∈ l, a.uid < b.uid → Near a.uid b.uid := by
  intro a ha b hb hlt
  exact (compare_later hlt).mp ((h b hb a ha).2.mpr hlt)

/-- The order that the sorting ought to use. -/
def byUid (a b : NameList δ) : Bool :=
  decide (a.uid ≤ b.uid)

theorem sorts_of_near (hd : (l.map NameList.uid).Nodup)
    (h : ∀ a ∈ l, ∀ b ∈ l, a.uid < b.uid → Near a.uid b.uid) : Sorts l := by
  intro l' hperm
  have hcompares := compares_of_near h
  have hcongr : hashSort l' = MergeRuns.sort byUid l' := by
    apply MergeRuns.sort_congr
    intro a ha b hb
    have hpos := (hcompares a (hperm.mem_iff.mp ha) b (hperm.mem_iff.mp hb)).2
    rw [byUid, decide_eq_decide, ← Int.not_lt, hpos, BitVec.not_lt]
  obtain ⟨r, hr⟩ := MergeRuns.exists_sort byUid l'
  have hrl : r.Perm l := (MergeRuns.sort_perm hr).trans hperm
  have htrans : ∀ a b c : NameList δ, byUid a b = true → byUid b c = true → byUid a c = true := by
    intro a b c hab hbc
    exact decide_eq_true (Nat.le_trans (of_decide_eq_true hab) (of_decide_eq_true hbc))
  have htotal : ∀ a b : NameList δ, (byUid a b || byUid b a) = true := by
    intro a b
    rcases Nat.le_total a.uid.toNat b.uid.toNat with hle | hle
    · rw [byUid, decide_eq_true (show a.uid ≤ b.uid from hle), Bool.true_or]
    · rw [Bool.or_comm, byUid, decide_eq_true (show b.uid ≤ a.uid from hle), Bool.true_or]
  have hsorted := MergeRuns.sort_sorted htrans htotal hr
  have hdistinct : r.Pairwise fun a b => a.uid ≠ b.uid :=
    List.pairwise_map.mp ((hrl.map NameList.uid).nodup_iff.mpr hd)
  refine ⟨r, hcongr.trans hr, hrl, ?_⟩
  refine (hsorted.and hdistinct).imp ?_
  rintro a b ⟨hle, hne⟩
  exact Nat.lt_of_le_of_ne (of_decide_eq_true hle) fun heq => hne (BitVec.eq_of_toNat_eq heq)

/-- Two entries of a list can be brought to its front, the larger one first. -/
theorem exists_front (ha : a ∈ l) (hb : b ∈ l) (hne : a ≠ b) : ∃ t, (b :: a :: t).Perm l := by
  obtain ⟨s, t, rfl⟩ := List.append_of_mem hb
  have hmem : a ∈ s ++ t := by
    rcases List.mem_append.mp ha with hs | ht
    · exact List.mem_append_left t hs
    · exact List.mem_append_right s ((List.mem_cons.mp ht).resolve_left hne)
  obtain ⟨u, v, huv⟩ := List.append_of_mem hmem
  refine ⟨u ++ v, ?_⟩
  have hfront : (b :: a :: (u ++ v)).Perm (b :: (s ++ t)) := by
    rw [huv]
    exact (List.perm_middle.symm).cons b
  exact hfront.trans List.perm_middle.symm

theorem near_of_sorts (h : Sorts l) : ∀ a ∈ l, ∀ b ∈ l, a.uid < b.uid → Near a.uid b.uid := by
  intro a ha b hb hlt
  have hne : a ≠ b := by
    rintro rfl
    exact BitVec.lt_irrefl _ hlt
  obtain ⟨t, ht⟩ := exists_front ha hb hne
  obtain ⟨r, hr, _, hpair⟩ := h _ ht
  rw [← compare_later hlt]
  by_contra hle
  have hfirst := MergeRuns.sort_first hr
  rw [if_pos (decide_eq_true (Int.not_lt.mp hle))] at hfirst
  have hback := List.rel_of_pairwise_cons (hpair.sublist hfirst) (List.mem_singleton.mpr rfl)
  exact Nat.lt_asymm hlt hback

/-- The sets of entries that are sorted, and compared as they should be. -/
theorem sorts_iff (l : List (NameList δ)) (hd : (l.map NameList.uid).Nodup) :
    (Sorts l ↔ ∀ a ∈ l, ∀ b ∈ l, a.uid < b.uid → Near a.uid b.uid) ∧
      (Compares l ↔ ∀ a ∈ l, ∀ b ∈ l, a.uid < b.uid → Near a.uid b.uid) :=
  ⟨⟨near_of_sorts, sorts_of_near hd⟩, ⟨near_of_compares, compares_of_near⟩⟩

/-- Two entries with neighbouring numbers. -/
theorem sorts_iff_pair : Sorts [⟨2, ()⟩, ⟨1, ()⟩] := by
  exact (sorts_iff [⟨2, ()⟩, ⟨1, ()⟩] (by decide)).1.mpr (by decide)

/-- An entry with the number `2 ^ 31 + 1` stays before one with the number 1. -/
theorem sorted_wrong : hashSort [⟨0x80000001, ()⟩, ⟨1, ()⟩] = some [⟨0x80000001, ()⟩, ⟨1, ()⟩] := by
  have hmerge : List.merge [⟨0x80000001, ()⟩] [⟨1, ()⟩] (fun a b : NameList Unit => decide (fsHashSortByUid a b ≤ 0)) =
      [⟨0x80000001, ()⟩, ⟨1, ()⟩] := by
    rw [List.cons_merge_cons, if_pos (by decide), List.nil_merge]
  simpa [hashSort, MergeRuns.sort, MergeRuns.loop, MergeRuns.pass] using hmerge

end Ltfs.DirSort
