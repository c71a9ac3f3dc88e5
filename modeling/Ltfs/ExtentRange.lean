import Ltfs.LastRefSpec

namespace Ltfs.ExtentRange

open Format TapeDevice LastRef LastRefSpec

variable (l : Label) (eod : Sides Nat)

/-- Every block of the extent lies between the label and the end of data of its partition. -/
def InRange (x : ExtentInfo) : Prop :=
  ∀ b, Touches l x b → ∃ p, x.start.partition = l.id p ∧ 4 ≤ b ∧ b < eod.get p

/-- The tests of `_ltfs_check_extents` that turn an extent away. -/
def Refused (x : ExtentInfo) : Prop :=
  x.start.block < 4 ∨ ∃ p, x.start.partition = l.id p ∧ eod.get p ≤ extLastblock l x

/-- The extent holds a block and lies in the label, reaches past the end of data or is on no partition
of the volume. -/
def Outside (x : ExtentInfo) : Prop :=
  x.start.block < extentEnd l x ∧
    (x.start.block < 4 ∨ ∀ p, x.start.partition = l.id p → eod.get p < extentEnd l x)

/-- The extent is on no partition of the volume, or only its byte offset takes it past the end of data. -/
def Overlooked (x : ExtentInfo) : Prop :=
  4 ≤ x.start.block ∧ x.start.block < extentEnd l x ∧
    ∀ p, x.start.partition = l.id p → extLastblock l x < eod.get p ∧ eod.get p < extentEnd l x

/-- The extent ends with the last recorded block, or holds no block and starts outside. -/
def AtTheEnd (x : ExtentInfo) : Prop :=
  (x.start.block = extentEnd l x ∧ Refused l eod x) ∨
    (4 ≤ x.start.block ∧ x.start.block < extentEnd l x ∧ ∃ p, x.start.partition = l.id p ∧
      extLastblock l x = eod.get p ∧ extentEnd l x = eod.get p)

theorem refused_iff (x : ExtentInfo) :
    Refused l eod x ↔ x.start.block < 4 ∨ (x.start.partition = l.partidIp ∧ eod.ip ≤ extLastblock l x) ∨
      (x.start.partition = l.partidDp ∧ eod.dp ≤ extLastblock l x) := by
  refine or_congr_right ⟨?_, ?_⟩
  · rintro ⟨p, hp⟩
    cases p with
    | ip => exact .inl hp
    | dp => exact .inr hp
  · rintro (h | h)
    · exact ⟨.ip, h⟩
    · exact ⟨.dp, h⟩

theorem checkExtentlist_ok (xs : List ExtentInfo) :
    checkExtentlist l eod xs = .ok () ↔ ∀ x ∈ xs, ¬ Refused l eod x := by
  induction xs with
  | nil => simp [checkExtentlist]
  | cons x xs ih =>
    rw [checkExtentlist, List.forall_mem_cons, refused_iff]
    split
    case isTrue h => simp [h]
    case isFalse h =>
      split
      case isTrue h' => simp [h']
      case isFalse h' => simp [ih, h, h']

mutual

theorem ltfsCheckExtents_ok : ∀ d : Dentry,
    ltfsCheckExtents l eod d = .ok () ↔ ∀ x ∈ d.extents, ¬ Refused l eod x
  | .file _ _ c => by
    rw [ltfsCheckExtents, Dentry.extents]
    exact checkExtentlist_ok l eod _
  | .dir _ children => by
    rw [ltfsCheckExtents, Dentry.extents]
    exact checkChildren_ok children

theorem checkChildren_ok : ∀ ds : List Dentry,
    checkChildren l eod ds = .ok () ↔ ∀ x ∈ Dentry.extentsList ds, ¬ Refused l eod x
  | [] => by simp [checkChildren, Dentry.extentsList]
  | d :: ds => by
    rw [checkChildren, Dentry.extentsList, List.forall_mem_append, ← ltfsCheckExtents_ok d,
      ← checkChildren_ok ds]
    cases ltfsCheckExtents l eod d with
    | error e => simp
    | ok u => simp

end

theorem not_inRange_iff (x : ExtentInfo) : ¬ InRange l eod x ↔ Outside l eod x := by
  constructor
  · intro h
    by_cases ht : x.start.block < extentEnd l x
    · refine ⟨ht, ?_⟩
      by_contra hc
      obtain ⟨h4, hnot⟩ := not_or.mp hc
      obtain ⟨p, hp⟩ := not_forall.mp hnot
      obtain ⟨hp, hle⟩ := Classical.not_imp.mp hp
      rw [Nat.not_lt] at h4 hle
      exact h fun b hb => ⟨p, hp, Nat.le_trans h4 hb.1, Nat.lt_of_lt_of_le hb.2 hle⟩
    · exact absurd (fun b hb => absurd (Nat.lt_of_le_of_lt hb.1 hb.2) ht) h
  · rintro ⟨ht, hout⟩ h
    obtain ⟨p, hp, h4, -⟩ := h _ (touches_start l ht)
    obtain ⟨q, hq, -, hlt⟩ := h _ (touches_last l ht)
    rcases hout with hlow | hpast
    · exact absurd hlow (Nat.not_lt.mpr h4)
    · have := hpast q hq
      omega

theorem overlooked_iff (x : ExtentInfo) :
    Overlooked l eod x ↔ ¬ Refused l eod x ∧ ¬ InRange l eod x := by
  rw [not_inRange_iff]
  constructor
  · rintro ⟨h4, ht, h⟩
    refine ⟨?_, ht, .inr fun p hp => (h p hp).2⟩
    rintro (hlow | ⟨p, hp, hle⟩)
    · omega
    · exact absurd (h p hp).1 (Nat.not_lt.mpr hle)
  · rintro ⟨hr, ht, hout⟩
    have h4 : 4 ≤ x.start.block := by
      by_contra hlow
      exact hr (.inl (Nat.lt_of_not_le hlow))
    refine ⟨h4, ht, fun p hp => ⟨?_, ?_⟩⟩
    · by_contra hle
      exact hr (.inr ⟨p, hp, Nat.le_of_not_lt hle⟩)
    · rcases hout with hlow | hpast
      · omega
      · exact hpast p hp

theorem atTheEnd_iff (x : ExtentInfo) :
    AtTheEnd l eod x ↔ Refused l eod x ∧ InRange l eod x := by
  have hle := extLastblock_le l x
  have hge : x.start.block ≤ extentEnd l x := Nat.le_add_right _ _
  constructor
  · rintro (⟨he, hr⟩ | ⟨h4, ht, p, hp, hn, hend⟩)
    · refine ⟨hr, fun b hb => ?_⟩
      have := Nat.lt_of_le_of_lt hb.1 hb.2
      omega
    · refine ⟨.inr ⟨p, hp, by omega⟩, fun b hb => ⟨p, hp, Nat.le_trans h4 hb.1, ?_⟩⟩
      exact hend ▸ hb.2
  · rintro ⟨hr, hin⟩
    by_cases ht : x.start.block < extentEnd l x
    · right
      obtain ⟨p, hp, h4, -⟩ := hin _ (touches_start l ht)
      obtain ⟨q, hq, -, hlt⟩ := hin _ (touches_last l ht)
      rcases hr with hlow | ⟨r, hr, hpast⟩
      · omega
      · obtain rfl : q = r := l.id_inj.mp (hq.symm.trans hr)
        exact ⟨h4, ht, q, hq, by omega, by omega⟩
    · exact .inl ⟨by omega, hr⟩

/-- `_ltfs_check_extents` accepts exactly the trees whose extents are all in range, unless some extent
is misjudged and no other one brings about the same answer. -/
theorem checkExtents_exact_iff (d : Dentry) :
    (ltfsCheckExtents l eod d = .ok () ↔ ∀ x ∈ d.extents, InRange l eod x) ↔
      ((∃ x ∈ d.extents, Overlooked l eod x) → ∃ x ∈ d.extents, Refused l eod x) ∧
      ((∃ x ∈ d.extents, AtTheEnd l eod x) → ∃ x ∈ d.extents, Outside l eod x) := by
  rw [ltfsCheckExtents_ok]
  simp only [overlooked_iff, atTheEnd_iff, ← not_inRange_iff]
  constructor
  · intro h
    constructor
    · rintro ⟨x, hx, -, hout⟩
      by_contra hno
      push Not at hno
      exact hout (h.mp hno x hx)
    · rintro ⟨x, hx, hr, -⟩
      by_contra hno
      push Not at hno
      exact h.mpr hno x hx hr
  · rintro ⟨hover, hend⟩
    constructor
    · intro hok x hx
      by_contra hout
      obtain ⟨y, hy, hr⟩ := hover ⟨x, hx, hok x hx, hout⟩
      exact hok y hy hr
    · intro hin x hx hr
      obtain ⟨y, hy, hout⟩ := hend ⟨x, hx, hr, hin x hx⟩
      exact hout (hin y hy)

/-- A file of one block, block 7 of the data partition. -/
def lastBlockFile : Dentry :=
  .file ⟨[97], 2, false, ⟨0, 0⟩, ⟨0, 0⟩, ⟨0, 0⟩, ⟨0, 0⟩, ⟨0, 0⟩, [], []⟩ 4 (.extents [⟨⟨7, 'b'⟩, 0, 4, 0⟩])

/-- With end of data at block 8 the file is turned away. -/
theorem checkExtents_last_block :
    ¬ (ltfsCheckExtents smallBlocks ⟨4, 8⟩ lastBlockFile = .ok () ↔
      ∀ x ∈ lastBlockFile.extents, InRange smallBlocks ⟨4, 8⟩ x) := by
  intro h
  have hin : ∀ x ∈ lastBlockFile.extents, InRange smallBlocks ⟨4, 8⟩ x := by
    rintro x hx b ⟨hge, hlt⟩
    obtain rfl : x = ⟨⟨7, 'b'⟩, 0, 4, 0⟩ := List.mem_singleton.mp hx
    exact ⟨.dp, rfl, Nat.le_trans (by decide) hge, hlt⟩
  exact absurd (h.mpr hin) (by decide)

/-- The check of the mount model, which does not wrap, gives the same answer where no sum leaves the
64-bit word. -/
theorem mount_ltfsCheckExtents (d : Dentry)
    (h : ∀ x ∈ d.extents, x.start.block + blocks l x.bytecount < 2 ^ 64) :
    Mount.ltfsCheckExtents l d eod = true ↔ ltfsCheckExtents l eod d = .ok () := by
  rw [ltfsCheckExtents_ok, Mount.ltfsCheckExtents, List.all_eq_true]
  refine forall₂_congr fun x hx => ?_
  have hn : extLastblock l x = x.start.block + (x.bytecount + l.blocksize - 1) / l.blocksize := by
    rw [extLastblock_eq, Nat.mod_eq_of_lt (h x hx), blocks]
  rw [refused_iff, hn, decide_eq_true_eq, ← Nat.not_lt]
  simp only [Label.id]
  tauto

end Ltfs.ExtentRange
