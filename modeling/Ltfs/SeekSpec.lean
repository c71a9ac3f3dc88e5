import Ltfs.IndexSearch

namespace Ltfs.SeekSpec

open Format Records VolumeRun IndexSearch
open Revalidate (previousFilemark nextFilemark nextFilemark_here)
open Mount (Found)

variable {rs : List Record} {b f c n : Nat} {t : Tape} {img : Image}

theorem previousFilemark_eq_some :
    previousFilemark rs b = some f ↔
      f < b ∧ rs[f]? = some .filemark ∧ ∀ c, f < c → c < b → rs[c]? ≠ some .filemark := by
  induction b with
  | zero => simp [previousFilemark]
  | succ b ih =>
    rw [previousFilemark]
    split
    case isTrue h =>
      constructor
      · rintro ⟨⟩
        exact ⟨Nat.lt_succ_self _, h, fun c h1 h2 => by omega⟩
      · rintro ⟨hlt, -, hno⟩
        by_cases hfb : f = b
        · rw [hfb]
        · exact absurd h (hno b (by omega) (Nat.lt_succ_self b))
    case isFalse h =>
      rw [ih]
      constructor
      · rintro ⟨hlt, hf, hno⟩
        refine ⟨Nat.lt_succ_of_lt hlt, hf, fun c h1 h2 => ?_⟩
        by_cases hcb : c = b
        · rwa [hcb]
        · exact hno c h1 (by omega)
      · rintro ⟨hlt, hf, hno⟩
        have hne : f ≠ b := by
          rintro rfl
          exact h hf
        exact ⟨by omega, hf, fun c h1 h2 => hno c h1 (by omega)⟩

/-- There is a filemark to stop at behind any filemark. -/
theorem exists_previousFilemark (hf : rs[f]? = some .filemark) (hb : f < b) :
    ∃ c, previousFilemark rs b = some c ∧ f ≤ c := by
  induction b with
  | zero => omega
  | succ b ih =>
    rw [previousFilemark]
    split
    case isTrue h => exact ⟨b, rfl, by omega⟩
    case isFalse h =>
      have hne : f ≠ b := by
        rintro rfl
        exact h hf
      exact ih (by omega)

theorem le_readBlocks (rs : List Record) (n b : Nat) : b ≤ readBlocks rs n b := by
  induction n generalizing b with
  | zero => exact Nat.le_refl b
  | succ n ih =>
    rw [readBlocks]
    split
    · exact Nat.le_refl b
    · exact Nat.le_trans (Nat.le_succ b) (ih (b + 1))

/-- The input of the parser does not pass a filemark. -/
theorem readBlocks_no_filemark (h1 : b ≤ c) (h2 : c < readBlocks rs n b) : rs[c]? ≠ some .filemark := by
  induction n generalizing b with
  | zero =>
    rw [readBlocks] at h2
    omega
  | succ n ih =>
    rw [readBlocks] at h2
    split at h2
    case isTrue => omega
    case isFalse h =>
      by_cases hcb : c = b
      · rw [hcb]
        exact fun hf => h (.inr hf)
      · exact ih (by omega) h2

theorem previousFilemark_readBlocks (hf : rs[f]? = some .filemark) :
    previousFilemark rs (readBlocks rs n (f + 1)) = some f := by
  have hle := le_readBlocks rs n (f + 1)
  exact previousFilemark_eq_some.mpr ⟨by omega, hf, fun c h1 h2 => readBlocks_no_filemark h1 h2⟩

theorem spacefmForward_one (hf : rs[f]? = some .filemark) : spacefmForward rs 1 f = .ok (f + 1) := by
  simp only [spacefmForward, nextFilemark_here hf]

/-- An index that starts behind the filemark at block `c`, which is not one of the label: every block
of the document is there, its version is known and its pointers are those of this place. -/
structure ValidIndex (t : Tape) (c : Nat) (img : Image) : Prop where
  filemark : t.recs[c]? = some .filemark
  past_label : 4 ≤ c
  document : img.records <+: t.recs.drop (c + 1)
  version : indexVersionMin ≤ img.index.version ∧ img.index.version ≤ indexVersionMax
  self : img.index.selfptr = ⟨c + 1, t.label.id t.part⟩
  back_partition : img.index.backptr.partition = '\x00' ∨ img.index.backptr.partition = t.label.id .dp
  back_earlier : img.index.backptr.partition = t.label.id t.part → c = 4 ∨ img.index.backptr.block = c + 1 ∨
    img.index.backptr.block + 1 < c
  back_block : img.index.backptr.partition ≠ '\x00' → 5 ≤ img.index.backptr.block

/-- The filemark that closes an index. -/
def Closed (t : Tape) (c : Nat) (img : Image) : Prop :=
  t.recs[c + 1 + img.blocks]? = some .filemark

instance (t : Tape) (c : Nat) (img : Image) : Decidable (Closed t c img) :=
  inferInstanceAs (Decidable (_ = _))

/-- The first block of an index of a version that is not supported. -/
def WrongVersion (t : Tape) (c : Nat) : Prop :=
  t.recs[c]? = some .filemark ∧ 4 ≤ c ∧ ∃ img, t.recs[c + 1]? = some (.index img 0) ∧
    (img.index.version < indexVersionMin ∨ indexVersionMax < img.index.version)

theorem document_block (h : img.records <+: rs.drop b) : rs[b]? = some (.index img 0) := by
  have hpos := img.blocks_pos
  have hget := List.prefix_iff_getElem?.mp h 0 (by simpa using hpos)
  simpa [Image.records] using hget

theorem xmlSchemaFromTape_eq_some {x : Image × Bool} :
    Mount.xmlSchemaFromTape rs b = some x ↔
      x.1.records <+: rs.drop b ∧ x.2 = decide (rs[b + x.1.blocks]? = some .filemark) := by
  obtain ⟨img, fm⟩ := x
  constructor
  · intro h
    rw [Mount.xmlSchemaFromTape] at h
    split at h
    case h_1 i k hk =>
      rw [Option.ite_none_right_eq_some, Option.some.injEq, Prod.mk.injEq] at h
      obtain ⟨hp, rfl, rfl⟩ := h
      exact ⟨hp, rfl⟩
    case h_2 => cases h
  · rintro ⟨hp, hfm⟩
    have hp' : img.records <+: rs.drop b := hp
    simp [Mount.xmlSchemaFromTape, document_block hp', hp', hfm.symm]

theorem mount_ltfsReadIndex_ok (l : Label) (p : Part) (hc : 4 ≤ c) (x : Image × Bool) :
    Mount.ltfsReadIndex l p rs (c + 1) = .ok x ↔
      Mount.xmlSchemaFromTape rs (c + 1) = some x ∧ x.1.index.selfptr = ⟨c + 1, l.id p⟩ ∧
      (x.1.index.backptr.partition = '\x00' ∨ x.1.index.backptr.partition = l.id .dp) ∧
      (x.1.index.backptr.partition = l.id p → c = 4 ∨ x.1.index.backptr.block = c + 1 ∨
        x.1.index.backptr.block + 1 < c) ∧
      (x.1.index.backptr.partition ≠ '\x00' → 5 ≤ x.1.index.backptr.block) := by
  rw [Mount.ltfsReadIndex]
  cases hs : Mount.xmlSchemaFromTape rs (c + 1) with
  | none => simp
  | some y =>
    obtain ⟨img, fm⟩ := y
    constructor
    · intro h
      simp only at h
      split at h
      case isTrue => cases h
      case isFalse hself =>
      split at h
      case isTrue => cases h
      case isFalse hpart =>
      split at h
      case isTrue => cases h
      case isFalse hearlier =>
      split at h
      case isTrue => cases h
      case isFalse hblock =>
      obtain rfl := Except.ok.inj h
      have hself : img.index.selfptr = ⟨c + 1, l.id p⟩ := not_not.mp hself
      simp only [hself] at hearlier
      dsimp only
      refine ⟨rfl, hself, by tauto, fun hb => ?_, fun hb => ?_⟩
      · have hnot := fun h1 h2 h3 => hearlier ⟨hb, h1, h2, h3⟩
        by_contra hno
        push Not at hno
        exact hnot (by omega) hno.2.1 (by omega)
      · by_contra hno
        exact hblock ⟨hb, by omega⟩
    · rintro ⟨hx, hself, hpart, hearlier, hblock⟩
      obtain rfl := Option.some.inj hx
      simp only at hself hpart hearlier hblock
      have h1 : ¬ img.index.selfptr ≠ ⟨c + 1, l.id p⟩ := not_not.mpr hself
      have h2 : ¬ (img.index.backptr.partition ≠ '\x00' ∧ img.index.backptr.partition ≠ l.id .dp) := by tauto
      have h3 : ¬ (img.index.backptr.partition = img.index.selfptr.partition ∧ img.index.selfptr.block ≠ 5 ∧
          img.index.backptr.block ≠ img.index.selfptr.block ∧
          img.index.selfptr.block - 2 ≤ img.index.backptr.block) := by
        rw [hself]
        rintro ⟨hb, h5, hne, hle⟩
        have := hearlier hb
        simp only at h5 hne hle
        omega
      have h4 : ¬ (img.index.backptr.partition ≠ '\x00' ∧ img.index.backptr.block < 5) := by
        rintro ⟨hb, hlt⟩
        have := hblock hb
        omega
      simp only
      rw [if_neg h1, if_neg h2, if_neg h3, if_neg h4]

theorem readIndex_ok_iff (hf : t.recs[c]? = some .filemark) (hc : 4 ≤ c) (x : Image × Bool) :
    t.readIndex true (c + 1) = .ok x ↔ ValidIndex t c x.1 ∧ x.2 = decide (Closed t c x.1) := by
  constructor
  · intro h
    rw [Tape.readIndex] at h
    split at h
    case h_1 => cases h
    case h_2 y hy =>
    split at h
    case h_1 => cases h
    case h_2 z hz =>
    obtain rfl := Except.ok.inj h
    obtain ⟨hs, hself, hpart, hearlier, hblock⟩ := (mount_ltfsReadIndex_ok _ _ hc _).mp hz
    obtain ⟨hdoc, hfm⟩ := xmlSchemaFromTape_eq_some.mp hs
    refine ⟨⟨hf, hc, hdoc, ?_, hself, hpart, hearlier, hblock⟩, hfm⟩
    simp only [Tape.xmlSchemaFromTape, document_block hdoc] at hy
    split at hy
    case isTrue => cases hy
    case isFalse hv => omega
  · rintro ⟨hv, hfm⟩
    have hs := xmlSchemaFromTape_eq_some.mpr ⟨hv.document, hfm⟩
    have hread := (mount_ltfsReadIndex_ok t.label t.part hc x).mpr
      ⟨hs, hv.self, hv.back_partition, hv.back_earlier, hv.back_block⟩
    have hversion : ¬ (x.1.index.version < indexVersionMin ∨ indexVersionMax < x.1.index.version) := by
      have := hv.version
      omega
    simp [Tape.readIndex, Tape.xmlSchemaFromTape, document_block hv.document, hversion, hs, hread]

theorem readIndex_wrongVersion (hf : t.recs[c]? = some .filemark) (hc : 4 ≤ c) :
    t.readIndex true (c + 1) = .error .unsupportedIndexVersion ↔ WrongVersion t c := by
  constructor
  · intro h
    refine ⟨hf, hc, ?_⟩
    rw [Tape.readIndex] at h
    split at h
    case h_1 e he =>
      obtain rfl := Except.error.inj h
      rw [Tape.xmlSchemaFromTape] at he
      split at he
      case h_1 img hi =>
        split at he
        case isTrue hv => exact ⟨img, hi, hv⟩
        case isFalse =>
          split at he
          case h_1 => cases he
          case h_2 => simp at he
      case h_2 => cases he
    case h_2 =>
      split at h
      case h_1 => cases h
      case h_2 => cases h
  · rintro ⟨-, -, img, hi, hv⟩
    simp [Tape.readIndex, Tape.xmlSchemaFromTape, hi, hv]

/-- No index that the search would stop at starts behind block `c`. -/
structure NothingAfter (t : Tape) (ignoreWrongVersion : Bool) (c : Nat) : Prop where
  valid : ∀ d img, c < d → ¬ ValidIndex t d img
  version : ignoreWrongVersion = false → ∀ d, c < d → ¬ WrongVersion t d

/-- The answers of a search that stops at the last index it can: the last valid one, none if there is
none, and the error if one of an unsupported version comes after it and is not to be ignored. -/
inductive Answers (t : Tape) (ignoreWrongVersion : Bool) : Except SearchErrno (Option Found) → Prop where
  | found (c : Nat) (x : Found) : ValidIndex t c x.image → NothingAfter t ignoreWrongVersion c →
      x.fmAfter = decide (Closed t c x.image) →
      x.endPos = c + 1 + x.image.blocks + (if Closed t c x.image then 1 else 0) →
      x.blocksAfter = decide (x.endPos ≠ t.recs.length) → Answers t ignoreWrongVersion (.ok (some x))
  | none : NothingAfter t ignoreWrongVersion 3 → Answers t ignoreWrongVersion (.ok none)
  | refused (c : Nat) : ignoreWrongVersion = false → WrongVersion t c → NothingAfter t ignoreWrongVersion c →
      Answers t ignoreWrongVersion (.error .unsupportedIndexVersion)

theorem NothingAfter.step {i : Bool} (h : NothingAfter t i f) (hp : previousFilemark t.recs f = some b)
    (hvalid : ∀ img, ¬ ValidIndex t f img) (hversion : i = false → ¬ WrongVersion t f) : NothingAfter t i b := by
  obtain ⟨hlt, -, hno⟩ := previousFilemark_eq_some.mp hp
  constructor
  · intro d img hd hv
    rcases Nat.lt_trichotomy d f with hdf | rfl | hfd
    · exact hno d hd hdf hv.filemark
    · exact hvalid img hv
    · exact h.valid d img hfd hv
  · intro hi d hd hw
    rcases Nat.lt_trichotomy d f with hdf | rfl | hfd
    · exact hno d hd hdf hw.1
    · exact hversion hi hw
    · exact h.version hi d hfd hw

/-- The partition with its label at the start. -/
def labelled (l : Label) (p : Part) (wanted : Nat → Nat) (body : List Record) : Tape :=
  ⟨l, p, labelRecords ++ body, wanted⟩

section Mount

/-- Where every version is supported, an index is read as in the mount model. -/
theorem readIndex_mount (h : ¬ WrongVersion t f) (hf : t.recs[f]? = some .filemark) (hc : 4 ≤ f)
    (x : Image × Bool) :
    t.readIndex true (f + 1) = .ok x ↔ Mount.ltfsReadIndex t.label t.part t.recs (f + 1) = .ok x := by
  rw [readIndex_ok_iff hf hc, mount_ltfsReadIndex_ok _ _ hc, xmlSchemaFromTape_eq_some]
  constructor
  · rintro ⟨hv, hfm⟩
    exact ⟨⟨hv.document, hfm⟩, hv.self, hv.back_partition, hv.back_earlier, hv.back_block⟩
  · rintro ⟨⟨hdoc, hfm⟩, hself, hpart, hearlier, hblock⟩
    refine ⟨⟨hf, hc, hdoc, ?_, hself, hpart, hearlier, hblock⟩, hfm⟩
    by_contra hv
    exact h ⟨hf, hc, x.1, document_block hdoc, by omega⟩

theorem seekLoop_mount (i : Bool) (h3 : t.recs[3]? = some .filemark) (hw : ∀ c, ¬ WrongVersion t c)
    {fuel : Nat} (hfuel : f < fuel) (hf : t.recs[f]? = some .filemark) (hge : 3 ≤ f) (x : Option Found) :
    t.seekLoop i fuel f = some (.ok x) ↔ Mount.seekIndexFrom t.label t.part t.recs fuel f = .ok x := by
  induction fuel generalizing f with
  | zero => omega
  | succ fuel ih =>
    rw [Tape.seekLoop, Mount.seekIndexFrom]
    by_cases hlabel : f = 3
    · simp [hlabel]
    have hc : 4 ≤ f := by omega
    rw [if_neg hlabel, if_neg hlabel, spacefmForward_one hf, nextFilemark_here hf]
    simp only
    cases hr : t.readIndex true (f + 1) with
    | ok y =>
      obtain ⟨img, fm⟩ := y
      have hself : ¬ t.label.id t.part ≠ img.index.selfptr.partition := by
        rw [show img.index.selfptr = _ from ((readIndex_ok_iff hf hc _).mp hr).1.self]
        simp
      simp only [Tape.ltfsReadIndex, hr, if_neg hself, (readIndex_mount (hw f) hf hc _).mp hr]
      simp
    | error e =>
      have he : e ≠ .unsupportedIndexVersion := by
        rintro rfl
        exact hw f ((readIndex_wrongVersion hf hc).mp hr)
      have hm : ∀ y, Mount.ltfsReadIndex t.label t.part t.recs (f + 1) ≠ .ok y := by
        intro y hy
        rw [(readIndex_mount (hw f) hf hc y).mpr hy] at hr
        cases hr
      obtain ⟨b, hb, hble⟩ := exists_previousFilemark h3 (show 3 < f by omega)
      obtain ⟨hlt, hbf, -⟩ := previousFilemark_eq_some.mp hb
      have hback : spacefmBackward t.recs 2 (readBlocks t.recs (t.wanted (f + 1)) (f + 1)) = .ok b := by
        simp only [spacefmBackward, previousFilemark_readBlocks hf, hb]
      cases hy : Mount.ltfsReadIndex t.label t.part t.recs (f + 1) with
      | ok y => exact absurd hy (hm y)
      | error e' =>
        simp only [Tape.ltfsReadIndex, hr, he, and_false, if_false, hback, hb]
        exact ih (by omega) hbf hble

/-- The search of the mount model is this one where every version is supported. -/
theorem seekIndex_mount (l : Label) (p : Part) (wanted : Nat → Nat) (body : List Record) (i : Bool)
    (hw : ∀ c, ¬ WrongVersion (labelled l p wanted body) c) (x : Option Found) :
    (labelled l p wanted body).ltfsSeekIndex i ((labelled l p wanted body).recs.length + 1) = some (.ok x) ↔
      Mount.ltfsSeekIndex l p (labelRecords ++ body) = .ok x := by
  generalize ht : labelled l p wanted body = t at hw ⊢
  have hl : l = t.label := by rw [← ht]; rfl
  have hp : p = t.part := by rw [← ht]; rfl
  have hrs : labelRecords ++ body = t.recs := by rw [← ht]; rfl
  rw [hl, hp, hrs]
  have h3 : t.recs[3]? = some .filemark := by
    rw [← hrs]
    rfl
  obtain ⟨f, hf, hge⟩ := exists_previousFilemark h3 (List.getElem?_eq_some_iff.mp h3).1
  obtain ⟨hlt, hfm, -⟩ := previousFilemark_eq_some.mp hf
  rw [Tape.ltfsSeekIndex, Mount.ltfsSeekIndex]
  by_cases hshort : t.recs.length ≤ 4
  · simp [hshort]
  simp only [if_neg hshort, spacefmBackward, hf]
  by_cases hlabel : f = 3
  · simp [hlabel]
  rw [if_neg hlabel, if_neg hlabel]
  by_cases hlast : f = t.recs.length - 1
  · rw [if_pos hlast, if_pos hlast]
    obtain ⟨b, hb, hble⟩ := exists_previousFilemark h3 (show 3 < f by omega)
    obtain ⟨hbf, hbm, -⟩ := previousFilemark_eq_some.mp hb
    simp only [hb]
    exact seekLoop_mount i h3 hw (by omega) hbm hble x
  · rw [if_neg hlast, if_neg hlast]
    exact seekLoop_mount i h3 hw (by omega) hfm hge x

end Mount

end Ltfs.SeekSpec
