import Ltfs.TraverseSpec

namespace Ltfs.Rollback

open Format Records VolumeRun IndexSearch SeekSpec TraverseSpec
open Revalidate (previousFilemark nextFilemark)

/-- `vol->traverse_mode` -/
inductive TraverseMode where
  | forward
  | backward
  deriving DecidableEq

/-- The volume when `ltfs_mount` is done with the consistency check: both partitions, and the latest
index in `vol->index`. -/
structure Verified where
  label : Label
  recs : Sides (List Record)
  wanted : Part → Nat → Nat
  latest : Image

def Verified.tape (v : Verified) (p : Part) : Tape :=
  ⟨v.label, p, v.recs.get p, v.wanted p⟩

/-- How a mount ends: `latest` for reading and writing, `rollback` for reading only. -/
inductive Mounted where
  | failed
  | latest (i : Loaded)
  | rollback (i : Option Loaded)

/-- The search for a generation on one partition, with `loaded` in `vol->index` before. -/
def searchPartition (mode : TraverseMode) (v : Verified) (p : Part) (gen : UInt32) (fuel : Nat)
    (loaded : Option Loaded) : Option (Except SearchErrno (Traversal Unit)) :=
  match mode with
  | .forward => (v.tape p).ltfsTraverseIndexForward none gen fuel ⟨0, loaded, ()⟩
  | .backward => (v.tape p).ltfsTraverseIndexBackward none gen fuel ⟨0, loaded, ()⟩

/-- `ltfs_mount` from the consistency check on; its generation is an `unsigned short`. A search of the
index partition that fails leaves `stale` in `vol->index`. -/
def ltfsMount (mode : TraverseMode) (gen : UInt16) (fuel : Nat) (stale : Option Loaded) (v : Verified) :
    Option Mounted :=
  if gen ≠ 0 ∧ gen.toUInt32 ≠ v.latest.index.generation then
    match searchPartition mode v .ip gen.toUInt32 fuel (some (.index v.latest)) with
    | none => none
    | some (.ok s) => some (.rollback s.loaded)
    | some (.error _) =>
      match searchPartition mode v .dp gen.toUInt32 fuel stale with
      | none => none
      | some (.ok s) => some (.rollback s.loaded)
      | some (.error _) => some .failed
  else some (.latest (.index v.latest))

/-- The mount that `single_drive_main` asks for: `rollback_gen` is an `unsigned int`. -/
def singleDriveMount (rollbackGen : UInt32) (fuel : Nat) (stale : Option Loaded) (v : Verified) : Option Mounted :=
  ltfsMount .backward rollbackGen.toUInt16 fuel stale v

/-- The mount is over, and if it did not fail an index of generation `g` is loaded. -/
def Right (g : UInt32) (x : Option Mounted) : Prop :=
  x = some .failed ∨ (∃ i, x = some (.latest i) ∧ i.generation = g) ∨
    ∃ i, x = some (.rollback (some i)) ∧ i.generation = g

section Search

variable {σ : Type} {t : Tape} {gen : UInt32} {fuel : Nat} {s u : Traversal σ}

theorem traversed_ok (hgen : gen ≠ 0) (h : Tape.traversed gen s = .ok u) :
    ∃ i, u.loaded = some i ∧ i.generation = gen := by
  rw [Tape.traversed, if_pos hgen] at h
  split at h
  case h_1 => cases h
  case h_2 i hi =>
    split at h
    case isTrue => cases h
    case isFalse heq =>
      obtain rfl := Except.ok.inj h
      exact ⟨i, hi, not_not.mp heq⟩

/-- A search that succeeds has an index of the generation it was for in memory, on any tape. -/
theorem backwardLoop_ok (hgen : gen ≠ 0) (h : t.backwardLoop none gen fuel s = some (.ok u)) :
    ∃ i, u.loaded = some i ∧ i.generation = gen := by
  induction fuel generalizing s with
  | zero => cases h
  | succ fuel ih =>
    rw [Tape.backwardLoop] at h
    split at h
    case isTrue => exact traversed_ok hgen (Option.some.inj h)
    case isFalse =>
    split at h
    case h_1 => cases h
    case h_2 s' hs' =>
    simp only [Tape.callBack] at h
    split at h
    case isTrue => exact traversed_ok hgen (Option.some.inj h)
    case isFalse =>
    split at h
    case h_1 => cases h
    case h_2 b hb => exact ih h

variable {rs : List Record} {b c f : Nat}

theorem nextFilemark_spec (h : nextFilemark rs b = some f) :
    b ≤ f ∧ rs[f]? = some .filemark ∧ ∀ i, b ≤ i → i < f → rs[i]? ≠ some .filemark := by
  rw [nextFilemark, Option.map_eq_some_iff] at h
  obtain ⟨k, hk, rfl⟩ := h
  obtain ⟨hlt, hget, hno⟩ := List.findIdx?_eq_some_iff_getElem.mp hk
  rw [List.getElem_drop, decide_eq_true_eq] at hget
  rw [List.length_drop] at hlt
  refine ⟨Nat.le_add_right b k, List.getElem?_eq_some_iff.mpr ⟨by omega, hget⟩, fun i h1 h2 hi => ?_⟩
  obtain ⟨j, rfl⟩ := Nat.exists_eq_add_of_le h1
  have := hno j (by omega)
  rw [List.getElem_drop, (List.getElem?_eq_some_iff.mp hi).2] at this
  simp at this

theorem mount_ltfsReadIndex_schema {l : Label} {p : Part} {x : Image × Bool}
    (h : Mount.ltfsReadIndex l p rs b = .ok x) : Mount.xmlSchemaFromTape rs b = some x := by
  rw [Mount.ltfsReadIndex] at h
  cases hs : Mount.xmlSchemaFromTape rs b with
  | none =>
    rw [hs] at h
    cases h
  | some y =>
    rw [hs] at h
    simp only at h
    split at h
    · cases h
    split at h
    · cases h
    split at h
    · cases h
    split at h
    · cases h
    exact congrArg some (Except.ok.inj h)

/-- Of the blocks that reading an index passes, only the last one can be a filemark. -/
theorem loadIndex_one_filemark (h : t.loadIndex s = .ok u) (h1 : s.block ≤ f) (h2 : f + 1 < u.block) :
    t.recs[f]? ≠ some .filemark := by
  rw [Tape.loadIndex] at h
  cases hr : t.readIndex false s.block with
  | ok x =>
    obtain ⟨img, fm⟩ := x
    simp only [Tape.ltfsReadIndex, hr] at h
    obtain rfl := Except.ok.inj h
    rw [Tape.readIndex] at hr
    split at hr
    case h_1 => cases hr
    case h_2 =>
    split at hr
    case h_1 => cases hr
    case h_2 y hy =>
    obtain rfl := Except.ok.inj hr
    obtain ⟨hdoc, -⟩ := xmlSchemaFromTape_eq_some.mp (mount_ltfsReadIndex_schema hy)
    obtain ⟨k, rfl⟩ := Nat.exists_eq_add_of_le h1
    have hk : k < img.blocks := by
      have : (if fm = true then 1 else 0) ≤ 1 := by split <;> omega
      simp only at h2
      omega
    have hget := List.prefix_iff_getElem?.mp hdoc k (by simpa using hk)
    rw [List.getElem?_drop] at hget
    rw [hget]
    simp [Image.records]
  | error e =>
    simp only [Tape.ltfsReadIndex, hr] at h
    split at h
    case h_1 hc => cases hc
    case h_2 stop hc =>
      obtain ⟨-, rfl⟩ := Prod.mk.inj hc
      split at h
      case h_1 => cases h
      case h_2 d hd =>
        obtain rfl := Except.ok.inj h
        simp only [spacefmForward] at hd
        split at hd
        case h_1 => cases hd
        case h_2 g hg =>
          obtain rfl := Except.ok.inj hd
          obtain ⟨-, -, hno⟩ := nextFilemark_spec hg
          by_cases hf : f < readBlocks t.recs (t.wanted s.block) s.block
          · exact readBlocks_no_filemark h1 hf
          · exact hno f (Nat.le_of_not_lt hf) (by simp only at h2; omega)
    case h_3 => cases h

theorem spacefmBackward_four (h : spacefmBackward rs 4 c = .ok b) :
    ∃ f, rs[f]? = some .filemark ∧ rs[b]? = some .filemark ∧ b + 1 < f ∧ f + 1 < c := by
  simp only [spacefmBackward] at h
  split at h
  case h_1 => cases h
  case h_2 f1 hf1 =>
  split at h
  case h_1 => cases h
  case h_2 f2 hf2 =>
  split at h
  case h_1 => cases h
  case h_2 f3 hf3 =>
  split at h
  case h_1 => cases h
  case h_2 f4 hf4 =>
  obtain rfl := Except.ok.inj h
  obtain ⟨h1, -, -⟩ := previousFilemark_eq_some.mp hf1
  obtain ⟨h2, hfm, -⟩ := previousFilemark_eq_some.mp hf2
  obtain ⟨h3, -, -⟩ := previousFilemark_eq_some.mp hf3
  obtain ⟨h4, hfm', -⟩ := previousFilemark_eq_some.mp hf4
  exact ⟨f2, hfm, hfm', by omega, by omega⟩

/-- Every round of the backward search starts before the one it comes after. -/
theorem locatePreviousIndex_lt (h : t.loadIndex s = .ok u) (hb : t.locatePreviousIndex u.block = .ok b) :
    b < s.block := by
  rw [Tape.locatePreviousIndex] at hb
  split at hb
  case h_1 => cases hb
  case h_2 c hc =>
    obtain ⟨f, hf, hcf, h1, h2⟩ := spacefmBackward_four hc
    rw [spacefmForward_one hcf] at hb
    obtain rfl := Except.ok.inj hb
    by_contra hlt
    exact loadIndex_one_filemark h (by omega) h2 hf

theorem backwardLoop_ends (gen : UInt32) (h : s.block < fuel) : ∃ r, t.backwardLoop none gen fuel s = some r := by
  induction fuel generalizing s with
  | zero => omega
  | succ fuel ih =>
    rw [Tape.backwardLoop]
    split
    · exact ⟨_, rfl⟩
    cases hl : t.loadIndex s with
    | error e => exact ⟨_, rfl⟩
    | ok u =>
      simp only [Tape.callBack]
      split
      · exact ⟨_, rfl⟩
      cases hp : t.locatePreviousIndex u.block with
      | error e => exact ⟨_, rfl⟩
      | ok b =>
        have := locatePreviousIndex_lt hl hp
        exact ih (by simp only; omega)

theorem locateLastIndex_le (h : t.locateLastIndex = .ok b) : b ≤ t.recs.length := by
  rw [Tape.locateLastIndex] at h
  split at h
  case h_1 => cases h
  case h_2 c hc =>
    simp only [spacefmForward] at h
    split at h
    case h_1 => cases h
    case h_2 f hf =>
      obtain rfl := Except.ok.inj h
      exact (List.getElem?_eq_some_iff.mp (nextFilemark_spec hf).2.1).1

/-- The backward search ends on any tape. -/
theorem backward_ends (t : Tape) (gen : UInt32) (h : t.recs.length < fuel) (s : Traversal σ) :
    ∃ r, t.ltfsTraverseIndexBackward none gen fuel s = some r := by
  rw [Tape.ltfsTraverseIndexBackward]
  cases hl : t.locateLastIndex with
  | error e => exact ⟨_, rfl⟩
  | ok last => exact backwardLoop_ends gen (Nat.lt_of_le_of_lt (locateLastIndex_le hl) h)

theorem backward_ok (hgen : gen ≠ 0) (h : t.ltfsTraverseIndexBackward none gen fuel s = some (.ok u)) :
    ∃ i, u.loaded = some i ∧ i.generation = gen := by
  rw [Tape.ltfsTraverseIndexBackward] at h
  cases hl : t.locateLastIndex with
  | error e =>
    rw [hl] at h
    cases h
  | ok last =>
    rw [hl] at h
    exact backwardLoop_ok hgen h

end Search

/-- Rounds enough for either partition. -/
def Verified.rounds (v : Verified) (extra : Nat) : Nat :=
  v.recs.ip.length + v.recs.dp.length + 1 + extra

section Mount

variable (v : Verified) (extra : Nat) (stale : Option Loaded) {g : UInt32}

theorem search_ends (p : Part) (gen : UInt32) (i : Option Loaded) :
    ∃ r, searchPartition .backward v p gen (v.rounds extra) i = some r := by
  refine backward_ends (v.tape p) gen ?_ _
  cases p with
  | ip => simp only [Verified.tape, Verified.rounds, Sides.get_ip]; omega
  | dp => simp only [Verified.tape, Verified.rounds, Sides.get_dp]; omega

/-- The mount takes the latest index, or a search decides. -/
theorem singleDriveMount_cases (g : UInt32) :
    ((g.toUInt16 = 0 ∨ g.toUInt16.toUInt32 = v.latest.index.generation) ∧
      singleDriveMount g (v.rounds extra) stale v = some (.latest (.index v.latest))) ∨
    (g.toUInt16 ≠ 0 ∧ g.toUInt16.toUInt32 ≠ v.latest.index.generation ∧
      ((∃ p i s, searchPartition .backward v p g.toUInt16.toUInt32 (v.rounds extra) i = some (.ok s) ∧
        singleDriveMount g (v.rounds extra) stale v = some (.rollback s.loaded)) ∨
      ((∀ p, ∃ i e, searchPartition .backward v p g.toUInt16.toUInt32 (v.rounds extra) i = some (.error e)) ∧
        singleDriveMount g (v.rounds extra) stale v = some .failed))) := by
  rw [singleDriveMount, ltfsMount]
  split
  case isFalse h =>
    rw [not_and_or, not_not, not_not] at h
    exact .inl ⟨h, rfl⟩
  case isTrue h =>
    refine .inr ⟨h.1, h.2, ?_⟩
    obtain ⟨r, hr⟩ := search_ends v extra .ip g.toUInt16.toUInt32 (some (.index v.latest))
    obtain ⟨r', hr'⟩ := search_ends v extra .dp g.toUInt16.toUInt32 stale
    rw [hr]
    cases r with
    | ok s => exact .inl ⟨.ip, _, s, hr, rfl⟩
    | error e =>
      simp only [hr']
      cases r' with
      | ok s => exact .inl ⟨.dp, _, s, hr', rfl⟩
      | error e' =>
        refine .inr ⟨fun p => ?_, rfl⟩
        cases p with
        | ip => exact ⟨_, e, hr⟩
        | dp => exact ⟨_, e', hr'⟩

theorem toNat_narrow (g : UInt32) : g.toUInt16.toUInt32.toNat = g.toNat % 65536 := by
  simp

theorem narrow_ne_zero (g : UInt32) : g.toUInt16 ≠ 0 ↔ g.toUInt16.toUInt32 ≠ 0 := by
  rw [ne_eq, ne_eq, ← UInt32.toNat_inj, ← UInt16.toNat_inj]
  simp

theorem narrow_eq_iff (g : UInt32) : g.toUInt16.toUInt32 = g ↔ g.toNat < 65536 := by
  rw [← UInt32.toNat_inj, toNat_narrow]
  omega

/-- A generation of 16 bits is mounted as it was asked for, on any volume. -/
theorem right_of_lt (hg : g ≠ 0) (h : g.toNat < 65536) :
    Right g (singleDriveMount g (v.rounds extra) stale v) := by
  have hn := (narrow_eq_iff g).mpr h
  obtain ⟨hl, hm⟩ | ⟨h0, -, ⟨p, i, s, hs, hm⟩ | ⟨-, hm⟩⟩ := singleDriveMount_cases v extra stale g
  · have hlatest : v.latest.index.generation = g := by
      rcases hl with h0 | hl
      · exact absurd (by rw [← hn, h0]; rfl) hg
      · exact hl.symm.trans hn
    exact .inr (.inl ⟨_, hm, hlatest⟩)
  · obtain ⟨j, hj, hjg⟩ := backward_ok ((narrow_ne_zero g).mp h0) hs
    exact .inr (.inr ⟨j, by rw [hm, hj], hjg.trans hn⟩)
  · exact .inl hm

end Mount

/-- A volume whose partitions hold complete index constructs, of generations that do not decrease, and
end in one; the index partition ends in the latest. -/
structure WrittenVolume where
  label : Label
  wanted : Part → Nat → Nat
  pieces : Sides (List Piece)
  latest : Image
  ends : ∃ pre data, pieces.ip = pre ++ [(data, latest)]
  nonempty : ∀ p, pieces.get p ≠ []
  placed : ∀ p, Placed (written label p (wanted p) (pieces.get p)) 4 (pieces.get p)
  below : ∀ p, ∀ x ∈ pieces.get p, x.2.index.generation.toNat < 2 ^ 32 - 1
  sorted : ∀ p, (pieces.get p).Pairwise fun x y => x.2.index.generation ≤ y.2.index.generation

def WrittenVolume.verified (v : WrittenVolume) : Verified where
  label := v.label
  recs := ⟨(written v.label .ip (v.wanted .ip) v.pieces.ip).recs, (written v.label .dp (v.wanted .dp) v.pieces.dp).recs⟩
  wanted := v.wanted
  latest := v.latest

/-- Some index of the volume has generation `gen`. -/
def WrittenVolume.Has (v : WrittenVolume) (gen : Nat) : Prop :=
  ∃ p, ∃ x ∈ v.pieces.get p, x.2.index.generation.toNat = gen

section Written

variable (v : WrittenVolume) (extra : Nat) (stale : Option Loaded)

theorem verified_tape (p : Part) : v.verified.tape p = written v.label p (v.wanted p) (v.pieces.get p) := by
  cases p <;> rfl

theorem pieces_lt_rounds (p : Part) : (v.pieces.get p).length < v.verified.rounds extra := by
  have hle : ∀ (b : Nat) (xs : List Piece), b + xs.length ≤ piecesEnd b xs := by
    intro b xs
    induction xs generalizing b with
    | nil => exact Nat.le_refl b
    | cons x xs ih =>
      have := ih (pieceEnd b x)
      rw [piecesEnd, List.length_cons]
      simp only [pieceEnd, opening] at this ⊢
      omega
  have hend := (written_chain v.label p (v.wanted p) (v.pieces.get p)).2
  have hb := hle 4 (v.pieces.get p)
  cases p with
  | ip =>
    simp only [WrittenVolume.verified, Verified.rounds, Sides.get_ip] at hend hb ⊢
    omega
  | dp =>
    simp only [WrittenVolume.verified, Verified.rounds, Sides.get_dp] at hend hb ⊢
    omega

theorem search_written (p : Part) {gen : UInt32} (hgen : gen ≠ 0) (i : Option Loaded) :
    (∃ s, searchPartition .backward v.verified p gen (v.verified.rounds extra) i = some (.ok s)) ↔
      ∃ x ∈ v.pieces.get p, x.2.index.generation = gen := by
  rw [searchPartition, verified_tape]
  exact (backward_finds (v.nonempty p) (v.placed p) (v.below p) (v.sorted p) (pieces_lt_rounds v extra p)
    hgen ⟨0, i, ()⟩).1

/-- The exact condition on a volume of complete constructs. -/
theorem right_written_iff {g : UInt32} (hg : g ≠ 0) :
    Right g (singleDriveMount g (v.verified.rounds extra) stale v.verified) ↔
      g.toNat < 65536 ∨ (g.toNat % 65536 = 0 ∧ v.latest.index.generation = g) ∨
        (g.toNat % 65536 ≠ 0 ∧ v.latest.index.generation.toNat ≠ g.toNat % 65536 ∧ ¬ v.Has (g.toNat % 65536)) := by
  by_cases hlt : g.toNat < 65536
  · exact iff_of_true (right_of_lt v.verified extra stale hg hlt) (.inl hlt)
  have hn : g.toUInt16.toUInt32 ≠ g := fun h => hlt ((narrow_eq_iff g).mp h)
  have hnat := toNat_narrow g
  simp only [hlt, false_or]
  obtain ⟨hl, hm⟩ | ⟨h0, hl, hsearch⟩ := singleDriveMount_cases v.verified extra stale g
  · have hright : Right g (singleDriveMount g (v.verified.rounds extra) stale v.verified) ↔
        v.latest.index.generation = g := by
      rw [hm]
      simp [Right, WrittenVolume.verified, Loaded.generation]
    rw [hright]
    constructor
    · intro h
      rcases hl with h0 | hl
      · exact .inl ⟨by rw [← hnat, h0]; rfl, h⟩
      · exact absurd (hl.trans h) hn
    · rintro (⟨-, h⟩ | ⟨h0, hne, -⟩)
      · exact h
      · rcases hl with h0' | hl
        · exact absurd (by rw [← hnat, h0']; rfl) h0
        · exact absurd (by rw [← hnat, hl]; rfl) hne
  have hg0 : g.toUInt16.toUInt32 ≠ 0 := (narrow_ne_zero g).mp h0
  have hmod : g.toNat % 65536 ≠ 0 := by
    rw [← hnat]
    exact fun h => hg0 (UInt32.toNat_inj.mp h)
  have hlatest : v.latest.index.generation.toNat ≠ g.toNat % 65536 := by
    rw [← hnat]
    exact fun h => hl (UInt32.toNat_inj.mp h).symm
  rcases hsearch with ⟨p, i, s, hs, hm⟩ | ⟨hfail, hm⟩
  · obtain ⟨x, hx, hxg⟩ := (search_written v extra p hg0 i).mp ⟨s, hs⟩
    obtain ⟨j, hj, hjg⟩ := backward_ok hg0 hs
    have hhas : v.Has (g.toNat % 65536) := ⟨p, x, hx, by rw [hxg, hnat]⟩
    have hwrong : ¬ Right g (some (Mounted.rollback s.loaded)) := by
      rw [hj]
      rintro (h | ⟨k, h, -⟩ | ⟨k, h, hk⟩)
      · cases h
      · cases h
      · obtain rfl : j = k := Option.some.inj (Mounted.rollback.inj (Option.some.inj h))
        exact hn (hjg.symm.trans hk)
    rw [hm]
    simp [hwrong, hmod, hhas]
  · have hno : ¬ v.Has (g.toNat % 65536) := by
      rintro ⟨p, x, hx, hxg⟩
      obtain ⟨i, e, he⟩ := hfail p
      obtain ⟨s, hs⟩ := (search_written v extra p hg0 i).mpr ⟨x, hx, UInt32.toNat_inj.mp (hxg.trans hnat.symm)⟩
      rw [he] at hs
      cases hs
    rw [hm]
    simp [Right, hmod, hlatest, hno]

end Written

/-- A volume with one index on each partition, the latest of generation `g`. -/
def oneIndex (g : UInt32) (hg : g.toNat < 2 ^ 32 - 1) : WrittenVolume where
  label := sampleLabel
  wanted := fun _ _ => 1
  pieces := ⟨[([], ⟨sampleIndex g ⟨5, 'a'⟩ ⟨5, 'b'⟩, 1, Nat.one_pos⟩)],
    [([], ⟨sampleIndex g ⟨5, 'b'⟩ .null, 1, Nat.one_pos⟩)]⟩
  latest := ⟨sampleIndex g ⟨5, 'a'⟩ ⟨5, 'b'⟩, 1, Nat.one_pos⟩
  ends := ⟨[], [], rfl⟩
  nonempty := by rintro (_ | _) <;> simp
  placed := by
    have hversion : 10000 ≤ 20200 ∧ 20200 ≤ 29999 := by decide
    rintro (_ | _)
    · exact ⟨⟨rfl, Nat.le_refl 4, List.prefix_append _ _, hversion, rfl, .inr rfl, fun _ => .inl rfl,
        fun _ => Nat.le_refl 5⟩, trivial⟩
    · exact ⟨⟨rfl, Nat.le_refl 4, List.prefix_append _ _, hversion, rfl, .inl rfl, fun _ => .inl rfl,
        fun h => absurd rfl h⟩, trivial⟩
  below := by
    rintro (_ | _) x hx
    · obtain rfl := List.mem_singleton.mp hx
      exact hg
    · obtain rfl := List.mem_singleton.mp hx
      exact hg
  sorted := by rintro (_ | _) <;> exact List.pairwise_singleton _ _

/-- A rollback to generation `g` is right on every volume exactly if `g` fits the 16 bits that
`ltfs_mount` keeps of it; beyond, it is right on a volume of complete constructs exactly if it comes to
the latest index and that is `g`, or if the generation of the lower 16 bits is not there. -/
theorem rollback_right_iff (g : UInt32) (hg : g ≠ 0) :
    ((∀ v extra stale, Right g (singleDriveMount g (v.rounds extra) stale v)) ↔ g.toNat < 65536) ∧
    ∀ (v : WrittenVolume) extra stale, Right g (singleDriveMount g (v.verified.rounds extra) stale v.verified) ↔
      g.toNat < 65536 ∨ (g.toNat % 65536 = 0 ∧ v.latest.index.generation = g) ∨
        (g.toNat % 65536 ≠ 0 ∧ v.latest.index.generation.toNat ≠ g.toNat % 65536 ∧
          ¬ v.Has (g.toNat % 65536)) := by
  refine ⟨⟨fun h => ?_, fun h v extra stale => right_of_lt v extra stale hg h⟩,
    fun v extra stale => right_written_iff v extra stale hg⟩
  by_contra hlt
  by_cases h0 : g.toNat % 65536 = 0
  · have hv := (right_written_iff (oneIndex 1 (by decide)) 0 none hg).mp (h _ 0 none)
    rcases hv with hv | ⟨-, hv⟩ | ⟨hv, -⟩
    · exact hlt hv
    · have : g = 1 := hv.symm
      exact hlt (by rw [this]; decide)
    · exact hv h0
  · have hn := toNat_narrow g
    have hv := (right_written_iff (oneIndex g.toUInt16.toUInt32 (by omega)) 0 none hg).mp (h _ 0 none)
    rcases hv with hv | ⟨hv, -⟩ | ⟨-, hv, -⟩
    · exact hlt hv
    · exact h0 hv
    · exact hv hn

theorem rollback_right_three :
    (3 : UInt32) ≠ 0 ∧ ((∀ v extra stale, Right 3 (singleDriveMount 3 (v.rounds extra) stale v)) ↔
      (3 : UInt32).toNat < 65536) :=
  ⟨by decide, (rollback_right_iff 3 (by decide)).1⟩

/-- Asked for generation 65536, the command mounts generation 1 for reading and writing. -/
theorem rollback_wraps :
    ¬ Right 65536 (singleDriveMount 65536 ((oneIndex 1 (by decide)).verified.rounds 0) none
      (oneIndex 1 (by decide)).verified) := by
  have hm : singleDriveMount 65536 ((oneIndex 1 (by decide)).verified.rounds 0) none
      (oneIndex 1 (by decide)).verified = some (.latest (.index (oneIndex 1 (by decide)).latest)) := rfl
  rw [hm]
  rintro (h | ⟨i, h, hi⟩ | ⟨i, h, -⟩)
  · cases h
  · obtain rfl := Mounted.latest.inj (Option.some.inj h)
    exact absurd hi (by decide)
  · cases h

end Ltfs.Rollback
