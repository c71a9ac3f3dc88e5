import Mathlib
import Ltfs.LastRef
import Ltfs.VolumeRun

namespace Ltfs.LastRefSpec

open Format Records TapeDevice LastRef
open Mount (Found extraBlocks)

variable (l : Label)

theorem lastRefExtent_eq (s : Sides Nat) {p : Part} {x : ExtentInfo} (h : x.start.partition = l.id p) :
    lastRefExtent l s x = s.set p (max (s.get p) (extLastblock l x)) := by
  cases p with
  | ip =>
    have hi : x.start.partition = l.partidIp := h
    by_cases hs : s.ip < extLastblock l x
    · simp [lastRefExtent, hi, hs, Sides.set, Nat.max_eq_right (Nat.le_of_lt hs)]
    · simp [lastRefExtent, hi, l.ids_ne, hs, Sides.set, Nat.max_eq_left (Nat.le_of_not_lt hs)]
  | dp =>
    have hd : x.start.partition = l.partidDp := h
    by_cases hs : s.dp < extLastblock l x
    · simp [lastRefExtent, hd, l.ids_ne.symm, hs, Sides.set, Nat.max_eq_right (Nat.le_of_lt hs)]
    · simp [lastRefExtent, hd, l.ids_ne.symm, hs, Sides.set, Nat.max_eq_left (Nat.le_of_not_lt hs)]

theorem lastRefExtent_of_foreign (s : Sides Nat) {x : ExtentInfo} (h : ∀ p, x.start.partition ≠ l.id p) :
    lastRefExtent l s x = s := by
  have hi : x.start.partition ≠ l.partidIp := h .ip
  have hd : x.start.partition ≠ l.partidDp := h .dp
  simp [lastRefExtent, hi, hd]

theorem lt_lastRefExtent (s : Sides Nat) (x : ExtentInfo) (p : Part) (b : Nat) :
    b < (lastRefExtent l s x).get p ↔
      b < s.get p ∨ (x.start.partition = l.id p ∧ b < extLastblock l x) := by
  by_cases h : ∃ q, x.start.partition = l.id q
  · obtain ⟨q, hq⟩ := h
    rw [lastRefExtent_eq l s hq, hq, l.id_inj]
    by_cases hpq : q = p
    · subst hpq
      simp only [Sides.get_set_self, true_and]
      omega
    · rw [Sides.get_set_ne s (Ne.symm hpq)]
      simp [hpq]
  · have hf : ∀ q, x.start.partition ≠ l.id q := fun q hq => h ⟨q, hq⟩
    rw [lastRefExtent_of_foreign l s hf]
    simp [hf p]

theorem lt_foldl_lastRefExtent (xs : List ExtentInfo) (s : Sides Nat) (p : Part) (b : Nat) :
    b < (xs.foldl (lastRefExtent l) s).get p ↔
      b < s.get p ∨ ∃ x ∈ xs, x.start.partition = l.id p ∧ b < extLastblock l x := by
  induction xs generalizing s with
  | nil => simp
  | cons x xs ih =>
    rw [List.foldl_cons, ih, lt_lastRefExtent]
    simp only [List.exists_mem_cons_iff, or_assoc]

mutual

theorem ltfsLastRef_eq_foldl : ∀ (d : Dentry) (s : Sides Nat),
    ltfsLastRef l d s = d.extents.foldl (lastRefExtent l) s
  | .file _ _ c, s => by rw [ltfsLastRef, Dentry.extents]
  | .dir _ children, s => by
    rw [ltfsLastRef, Dentry.extents]
    exact lastRefChildren_eq_foldl children s

theorem lastRefChildren_eq_foldl : ∀ (ds : List Dentry) (s : Sides Nat),
    lastRefChildren l ds s = (Dentry.extentsList ds).foldl (lastRefExtent l) s
  | [], s => by rw [lastRefChildren, Dentry.extentsList, List.foldl_nil]
  | d :: ds, s => by
    rw [lastRefChildren, Dentry.extentsList, List.foldl_append, ← ltfsLastRef_eq_foldl d s]
    exact lastRefChildren_eq_foldl ds _

end

/-- What `_ltfs_last_ref` computes from zero: the least bound of the ends of the extents as it takes
them, on each partition. -/
theorem lt_ltfsLastRef (d : Dentry) (p : Part) (b : Nat) :
    b < (ltfsLastRef l d ⟨0, 0⟩).get p ↔ ∃ x, On l d p x ∧ b < extLastblock l x := by
  have h0 : (⟨0, 0⟩ : Sides Nat).get p = 0 := by cases p <;> rfl
  rw [ltfsLastRef_eq_foldl, lt_foldl_lastRefExtent, h0]
  simp [On, and_assoc]

theorem ltfsLastRef_le (d : Dentry) (p : Part) (n : Nat) :
    (ltfsLastRef l d ⟨0, 0⟩).get p ≤ n ↔ ∀ x, On l d p x → extLastblock l x ≤ n := by
  constructor
  · intro h x hx
    by_contra hlt
    exact absurd ((lt_ltfsLastRef l d p n).mpr ⟨x, hx, Nat.lt_of_not_le hlt⟩) (Nat.not_lt.mpr h)
  · intro h
    by_contra hlt
    obtain ⟨x, hx, hb⟩ := (lt_ltfsLastRef l d p n).mp (Nat.lt_of_not_le hlt)
    exact absurd hb (Nat.not_lt.mpr (h x hx))

/-- The extent ends in a later block than `_ltfs_last_ref` takes it to: its byte offset carries it into
one more block, or the sum of the code leaves the 64-bit word. -/
def Carried (x : ExtentInfo) : Prop :=
  x.start.block < extentEnd l x ∧
    (blocks l x.bytecount < blocks l (x.byteoffset + x.bytecount) ∨
      2 ^ 64 ≤ x.start.block + blocks l x.bytecount)

theorem carried_iff (x : ExtentInfo) :
    Carried l x ↔ x.start.block < extentEnd l x ∧ extLastblock l x < extentEnd l x := by
  have hm := blocks_mono l (Nat.le_add_left x.bytecount x.byteoffset)
  refine and_congr_right fun _ => ?_
  rw [extLastblock_eq, extentEnd]
  by_cases hw : 2 ^ 64 ≤ x.start.block + blocks l x.bytecount
  · have hlt := Nat.mod_lt (x.start.block + blocks l x.bytecount) (show 0 < 2 ^ 64 by decide)
    constructor
    · intro _
      omega
    · intro _
      exact .inr hw
  · rw [Nat.mod_eq_of_lt (Nat.lt_of_not_le hw)]
    omega

theorem touches_last {x : ExtentInfo} (h : x.start.block < extentEnd l x) :
    Touches l x (extentEnd l x - 1) := by
  constructor <;> omega

theorem touches_start {x : ExtentInfo} (h : x.start.block < extentEnd l x) : Touches l x x.start.block :=
  ⟨Nat.le_refl _, h⟩

/-- Every extent that is carried further lies below the end of some extent of the partition. -/
def Covered (d : Dentry) : Prop :=
  ∀ p x, On l d p x → Carried l x → ∃ y, On l d p y ∧ extentEnd l x ≤ extLastblock l y

theorem referenced_lt_iff (d : Dentry) :
    (∀ p b, Referenced l d p b → b < (ltfsLastRef l d ⟨0, 0⟩).get p) ↔ Covered l d := by
  constructor
  · intro h p x hx hc
    obtain ⟨ht, -⟩ := hc
    have hb := h p _ ⟨x, hx, touches_last l ht⟩
    obtain ⟨y, hy, hlt⟩ := (lt_ltfsLastRef l d p _).mp hb
    exact ⟨y, hy, by omega⟩
  · rintro h p b ⟨x, hx, hb⟩
    rw [lt_ltfsLastRef]
    have ht : x.start.block < extentEnd l x := Nat.lt_of_le_of_lt hb.1 hb.2
    by_cases hc : Carried l x
    · obtain ⟨y, hy, hle⟩ := h p x hx hc
      exact ⟨y, hy, Nat.lt_of_lt_of_le hb.2 hle⟩
    · have hle : extentEnd l x ≤ extLastblock l x := by
        by_contra hlt
        exact hc ((carried_iff l x).mpr ⟨ht, Nat.lt_of_not_le hlt⟩)
      exact ⟨x, hx, Nat.lt_of_lt_of_le hb.2 hle⟩

section Recovery

variable (deep recoverExtra : Bool) (k : Checked)

/-- The append position of the index partition becomes the place of the index found there: nothing
follows it, or what follows is to be erased and every extent ends before it. -/
def ReplacesIndex (f : Found) : Prop :=
  f.blocksAfter = true →
    deep = true ∧ recoverExtra = false ∧ 0 < f.endPos ∧ ∀ x, On l k.root .ip x → extLastblock l x < f.endPos

/-- No referenced block lies where an index is replaced or where a partition without an index is
started over. -/
structure Clear : Prop where
  index : ∀ f, k.found.ip = some f → ReplacesIndex l deep recoverExtra k f →
    ∀ b, Referenced l k.root .ip b → b < beforeIndex f
  empty : deep = true → recoverExtra = false → ∀ p, k.found.get p = none → 4 < k.eod.get p →
    ∀ b, Referenced l k.root p b → b < 4

theorem ltfsLastRef_lt (d : Dentry) (p : Part) (n : Nat) :
    (ltfsLastRef l d ⟨0, 0⟩).get p < n ↔ 0 < n ∧ ∀ x, On l d p x → extLastblock l x < n := by
  cases n with
  | zero => simp
  | succ n =>
    simp only [Nat.lt_succ_iff, ltfsLastRef_le, Nat.zero_le, true_and]

theorem appendPositions_erase (hd : deep = true) (hr : recoverExtra = false)
    (hx : extraBlocks k.found.dp k.eod.dp = true ∨ extraBlocks k.found.ip k.eod.ip = true) :
    appendPositions l deep recoverExtra k =
      ⟨recoverIp k (ltfsLastRef l k.root ⟨0, 0⟩).ip, recoverDp k (ltfsLastRef l k.root ⟨0, 0⟩).dp⟩ := by
  rw [appendPositions, if_pos ⟨hd, hr, hx⟩]

theorem appendPositions_ip_of_replaces {f : Found} (hf : k.found.ip = some f)
    (h : ReplacesIndex l deep recoverExtra k f) :
    (appendPositions l deep recoverExtra k).ip = some (beforeIndex f) := by
  cases hb : f.blocksAfter with
  | false =>
    rw [appendPositions]
    split
    · simp [recoverIp, hf, hb]
    · simp [hf, hb]
  | true =>
    obtain ⟨hd, hr, hlt⟩ := h hb
    have hlast : (ltfsLastRef l k.root ⟨0, 0⟩).ip < f.endPos := (ltfsLastRef_lt l k.root .ip _).mpr hlt
    have hx : extraBlocks k.found.ip k.eod.ip = true := by simp [extraBlocks, hf, hb]
    rw [appendPositions_erase l _ _ _ hd hr (.inr hx)]
    simp [recoverIp, hf, hb, hlast, Nat.not_le.mpr hlast]

theorem appendPositions_of_none (hd : deep = true) (hr : recoverExtra = false) (p : Part)
    (hp : k.found.get p = none) (he : 4 < k.eod.get p) :
    (appendPositions l deep recoverExtra k).get p = some 4 := by
  cases p with
  | ip =>
    have hn : k.found.ip = none := hp
    have hx : extraBlocks k.found.ip k.eod.ip = true := by
      simp [extraBlocks, hn, Nat.ne_of_gt (show 4 < k.eod.ip from he)]
    rw [appendPositions_erase l _ _ _ hd hr (.inr hx)]
    simp [recoverIp, hn, show 4 < k.eod.ip from he]
  | dp =>
    have hn : k.found.dp = none := hp
    have hx : extraBlocks k.found.dp k.eod.dp = true := by
      simp [extraBlocks, hn, Nat.ne_of_gt (show 4 < k.eod.dp from he)]
    rw [appendPositions_erase l _ _ _ hd hr (.inl hx)]
    simp [recoverDp, hn, show 4 < k.eod.dp from he]

/-- Every append position is the place of an index, the start of a partition without one, or no less
than the last reference. -/
theorem appendPositions_cases {p : Part} {a : Nat} (h : (appendPositions l deep recoverExtra k).get p = some a) :
    (∃ f, p = .ip ∧ k.found.ip = some f ∧ ReplacesIndex l deep recoverExtra k f ∧ a = beforeIndex f) ∨
    (deep = true ∧ recoverExtra = false ∧ k.found.get p = none ∧ 4 < k.eod.get p ∧ a = 4) ∨
    (ltfsLastRef l k.root ⟨0, 0⟩).get p ≤ a := by
  rw [appendPositions] at h
  split at h
  case isTrue hx =>
    obtain ⟨hd, hr, -⟩ := hx
    cases p with
    | ip =>
      simp only [Sides.get_ip, recoverIp] at h
      cases hf : k.found.ip with
      | none =>
        simp only [hf, Option.ite_none_right_eq_some, Option.some.injEq] at h
        exact .inr (.inl ⟨hd, hr, hf, h.1, h.2.symm⟩)
      | some f =>
        simp only [hf] at h
        split at h
        case isFalse hb =>
          exact .inl ⟨f, rfl, rfl, fun hb' => absurd hb' hb, by simpa using h.symm⟩
        case isTrue hb =>
          split at h
          case isTrue =>
            exact .inr (.inr (Nat.le_of_eq (by simpa using h)))
          case isFalse =>
            simp only [Option.ite_none_right_eq_some, Option.some.injEq] at h
            have hlt := (ltfsLastRef_lt l k.root .ip _).mp h.1
            exact .inl ⟨f, rfl, rfl, fun _ => ⟨hd, hr, hlt⟩, h.2.symm⟩
    | dp =>
      simp only [Sides.get_dp, recoverDp] at h
      cases hf : k.found.dp with
      | none =>
        simp only [hf, Option.ite_none_right_eq_some, Option.some.injEq] at h
        exact .inr (.inl ⟨hd, hr, hf, h.1, h.2.symm⟩)
      | some f =>
        right
        right
        simp only [hf, Option.ite_none_right_eq_some] at h
        obtain ⟨-, h⟩ := h
        split at h
        case isTrue => exact Nat.le_of_eq (by simpa using h)
        case isFalse =>
          simp only [Option.ite_none_right_eq_some, Option.some.injEq] at h
          exact h.2 ▸ Nat.le_of_lt h.1
  case isFalse =>
    cases hf : k.found.ip with
    | none => cases p <;> simp [hf] at h
    | some f =>
      cases p with
      | dp => simp [hf] at h
      | ip =>
        simp only [hf, Sides.get_ip] at h
        split at h
        case isTrue => cases h
        case isFalse hb =>
          exact .inl ⟨f, rfl, rfl, fun hb' => absurd hb' hb, by simpa using h.symm⟩

/-- The last references lie past every referenced block and every append position does, exactly when
no carried extent ends the partition and no reference lies where an index or the start of a
partition is written over. -/
theorem references_kept_iff :
    (∀ p b, Referenced l k.root p b → b < (ltfsLastRef l k.root ⟨0, 0⟩).get p ∧
      ∀ a, (appendPositions l deep recoverExtra k).get p = some a → b < a) ↔
    Covered l k.root ∧ Clear l deep recoverExtra k := by
  constructor
  · intro h
    refine ⟨(referenced_lt_iff l k.root).mp fun p b hb => (h p b hb).1, ?_, ?_⟩
    · intro f hf hrep b hb
      exact (h .ip b hb).2 _ (appendPositions_ip_of_replaces l _ _ _ hf hrep)
    · intro hd hr p hp he b hb
      exact (h p b hb).2 _ (appendPositions_of_none l _ _ _ hd hr p hp he)
  · rintro ⟨hc, hk⟩ p b hb
    have hlast := (referenced_lt_iff l k.root).mpr hc p b hb
    refine ⟨hlast, fun a ha => ?_⟩
    rcases appendPositions_cases l _ _ _ ha with ⟨f, rfl, hf, hrep, ha⟩ | ⟨hd, hr, hp, he, rfl⟩ | hle
    · exact ha ▸ hk.index f hf hrep b hb
    · exact hk.empty hd hr p hp he b hb
    · exact Nat.lt_of_lt_of_le hlast hle

/-- A volume with blocks of four bytes. -/
def smallBlocks : Label :=
  ⟨'a', 'b', 4, Label.a_ne_b, Label.a_ne_nul, Label.b_ne_nul, Label.pos_four⟩

/-- A file of four bytes that start one byte into block 7 and so end in block 8. -/
def carriedRoot : Dentry :=
  .dir ⟨[], 1, false, ⟨0, 0⟩, ⟨0, 0⟩, ⟨0, 0⟩, ⟨0, 0⟩, ⟨0, 0⟩, [], []⟩
    [.file ⟨[97], 2, false, ⟨0, 0⟩, ⟨0, 0⟩, ⟨0, 0⟩, ⟨0, 0⟩, ⟨0, 0⟩, [], []⟩ 4 (.extents [⟨⟨7, 'b'⟩, 1, 4, 0⟩])]

/-- The index partition ends in the newer index; blocks 7 and 8 follow the index of the data partition. -/
def carriedChecked : Checked where
  found := ⟨
    some ⟨⟨{ VolumeRun.sampleIndex 2 ⟨5, 'a'⟩ ⟨5, 'b'⟩ with root := carriedRoot }, 1, Nat.one_pos⟩, 7, true, false⟩,
    some ⟨⟨VolumeRun.sampleIndex 1 ⟨5, 'b'⟩ .null, 1, Nat.one_pos⟩, 7, true, true⟩⟩
  eod := ⟨7, 9⟩
  root := carriedRoot

/-- Block 8 is referenced, and erasing the extra blocks starts there. -/
theorem references_kept_carried :
    ¬ ∀ p b, Referenced smallBlocks carriedChecked.root p b →
      b < (ltfsLastRef smallBlocks carriedChecked.root ⟨0, 0⟩).get p ∧
        ∀ a, (appendPositions smallBlocks true false carriedChecked).get p = some a → b < a := by
  intro h
  have hb : Referenced smallBlocks carriedChecked.root .dp 8 :=
    ⟨⟨⟨7, 'b'⟩, 1, 4, 0⟩, ⟨by decide, rfl⟩, by decide⟩
  have hlt : 8 < 8 := (h .dp 8 hb).2 8 (by decide)
  exact absurd hlt (by decide)

end Recovery

end Ltfs.LastRefSpec
