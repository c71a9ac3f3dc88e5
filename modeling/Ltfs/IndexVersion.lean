import Ltfs.Lib.Decimal

namespace Ltfs.IndexVersion

/-- `atoi`: the number is read as a `long`, which stops at its largest value, and cut down to an `int`. -/
def atoi (s : List Char) : BitVec 32 :=
  BitVec.ofNat 32 (min (Nat.ofDigitChars 10 (s.takeWhile Char.isDigit) 0) (2 ^ 63 - 1))

/-- `MAKE_LTFS_VERSION` -/
def makeLtfsVersion (x y z : BitVec 32) : BitVec 32 :=
  10000#32 * x + 100#32 * y + z

/-- One of the loops over digits: there has to be one, and what is behind them is returned. -/
def skipDigits (s : List Char) : Option (List Char) :=
  if s.takeWhile Char.isDigit = [] then none else some (s.dropWhile Char.isDigit)

def skipDot : List Char → Option (List Char)
  | '.' :: s => some s
  | _ => none

def legacyVersion : List Char := ['1', '.', '0']

def xmlParseVersion (versionStr : List Char) : Option (BitVec 32) :=
  if versionStr = legacyVersion then some (makeLtfsVersion 1 0 0)
  else do
    let yStr ← skipDot (← skipDigits versionStr)
    let zStr ← skipDot (← skipDigits yStr)
    let rest ← skipDigits zStr
    if rest = [] then some (makeLtfsVersion (atoi versionStr) (atoi yStr) (atoi zStr)) else none

/-- What is read: a label or an index. -/
inductive Document where
  | label
  | index

def versionMin : Document → BitVec 32
  | .label => makeLtfsVersion 1 0 0
  | .index => makeLtfsVersion 1 0 0

def versionMax : Document → BitVec 32
  | .label => makeLtfsVersion 2 99 99
  | .index => makeLtfsVersion 2 99 99

/-- `_xml_parser_init`, from the version attribute of the top tag on. -/
def xmlParserInit (doc : Document) (value : List Char) : Option (BitVec 32) := do
  let ver ← xmlParseVersion value
  if ver.toInt < (versionMin doc).toInt ∨ (versionMax doc).toInt < ver.toInt then none else some ver

structure Version where
  major : Nat
  minor : Nat
  revision : Nat

/-- The order component by component. -/
def Version.le (v w : Version) : Prop :=
  v.major < w.major ∨ v.major = w.major ∧
    (v.minor < w.minor ∨ v.minor = w.minor ∧ v.revision ≤ w.revision)

def minimum : Version := ⟨1, 0, 0⟩

def maximum : Version := ⟨2, 99, 99⟩

/-- A decimal number with at least one digit. -/
def IsNumber (x : List Char) : Prop :=
  x ≠ [] ∧ ∀ c ∈ x, c.isDigit = true

def value (x : List Char) : Nat :=
  Nat.ofDigitChars 10 x 0

/-- The text is of the form major.minor.revision. -/
def Form (s : List Char) (v : Version) : Prop :=
  ∃ x y z, IsNumber x ∧ IsNumber y ∧ IsNumber z ∧ s = x ++ '.' :: (y ++ '.' :: z) ∧
    v = ⟨value x, value y, value z⟩

/-- A text stands for a version by its form, or as the legacy 1.0. -/
def Reads (s : List Char) (v : Version) : Prop :=
  Form s v ∨ s = legacyVersion ∧ v = ⟨1, 0, 0⟩

/-- The components have room in the number they are packed in. -/
def Version.Fits (v : Version) : Prop :=
  v.major < 214748 ∧ v.minor < 100 ∧ v.revision < 100

variable {s t x y z rest : List Char} {v w : Version} {m n : BitVec 32} {doc : Document}

theorem takeWhile_number (hx : ∀ c ∈ x, c.isDigit = true) (hrest : ∀ c ∈ rest.head?, c.isDigit = false) :
    (x ++ rest).takeWhile Char.isDigit = x := by
  rw [List.takeWhile_append_of_pos hx]
  cases rest with
  | nil => simp
  | cons c rest =>
    have hc : c.isDigit = false := hrest c rfl
    rw [List.takeWhile_cons_of_neg (by simp [hc]), List.append_nil]

theorem skipDigits_number (hx : IsNumber x) (hrest : ∀ c ∈ rest.head?, c.isDigit = false) :
    skipDigits (x ++ rest) = some rest := by
  have htake := takeWhile_number hx.2 hrest
  have hdrop : (x ++ rest).dropWhile Char.isDigit = rest := by
    have hsplit := List.takeWhile_append_dropWhile (p := Char.isDigit) (l := x ++ rest)
    rw [htake] at hsplit
    exact List.append_cancel_left hsplit
  rw [skipDigits, htake, if_neg hx.1, hdrop]

theorem atoi_number (hx : IsNumber x) (hrest : ∀ c ∈ rest.head?, c.isDigit = false) :
    atoi (x ++ rest) = BitVec.ofNat 32 (min (value x) (2 ^ 63 - 1)) := by
  rw [atoi, takeWhile_number hx.2 hrest]
  rfl

theorem dot_ends (s : List Char) : ∀ c ∈ ('.' :: s).head?, c.isDigit = false := by
  intro c hc
  obtain rfl : '.' = c := by simpa using hc
  rfl

/-- The word that a version is packed in, when its components are read. -/
def packed (v : Version) : BitVec 32 :=
  makeLtfsVersion (BitVec.ofNat 32 (min v.major (2 ^ 63 - 1))) (BitVec.ofNat 32 (min v.minor (2 ^ 63 - 1)))
    (BitVec.ofNat 32 (min v.revision (2 ^ 63 - 1)))

theorem form_ne_legacy (h : Form s v) : s ≠ legacyVersion := by
  obtain ⟨x, y, z, hx, hy, hz, rfl, _⟩ := h
  intro heq
  have hlen := congrArg List.length heq
  have hxl := List.length_pos_iff.mpr hx.1
  have hyl := List.length_pos_iff.mpr hy.1
  have hzl := List.length_pos_iff.mpr hz.1
  simp only [List.length_append, List.length_cons, legacyVersion, List.length_nil] at hlen
  omega

theorem parse_form (h : Form s v) : xmlParseVersion s = some (packed v) := by
  rw [xmlParseVersion, if_neg (form_ne_legacy h)]
  obtain ⟨x, y, z, hx, hy, hz, rfl, rfl⟩ := h
  have hnil : ∀ c ∈ ([] : List Char).head?, c.isDigit = false := by simp
  have hend : skipDigits z = some [] := by simpa using skipDigits_number hz hnil
  have hrev : atoi z = BitVec.ofNat 32 (min (value z) (2 ^ 63 - 1)) := by simpa using atoi_number hz hnil
  rw [skipDigits_number hx (dot_ends _), atoi_number hx (dot_ends _)]
  simp only [Option.bind_eq_bind, Option.bind_some, skipDot, skipDigits_number hy (dot_ends z), hend, if_true,
    atoi_number hy (dot_ends z), hrev, packed]

theorem parse_legacy : xmlParseVersion legacyVersion = some (packed ⟨1, 0, 0⟩) := rfl

theorem parse_reads (h : Reads s v) : xmlParseVersion s = some (packed v) := by
  rcases h with hform | ⟨rfl, rfl⟩
  · exact parse_form hform
  · exact parse_legacy

theorem packed_toInt (h : v.Fits) : (packed v).toInt = 10000 * v.major + 100 * v.minor + v.revision := by
  obtain ⟨hmajor, hminor, hrevision⟩ := h
  have hword : packed v = BitVec.ofNat 32 (10000 * v.major + 100 * v.minor + v.revision) := by
    rw [packed, makeLtfsVersion, Nat.min_eq_left (by omega), Nat.min_eq_left (by omega),
      Nat.min_eq_left (by omega), ← BitVec.ofNat_mul, ← BitVec.ofNat_mul, ← BitVec.ofNat_add, ← BitVec.ofNat_add]
  rw [hword, BitVec.toInt, BitVec.toNat_ofNat]
  split <;> omega

/-- In the range where components have room the packed number has the order of the versions. -/
theorem packed_le (hv : v.Fits) (hw : w.Fits) : (packed v).toInt ≤ (packed w).toInt ↔ v.le w := by
  rw [packed_toInt hv, packed_toInt hw, Version.le]
  obtain ⟨_, hminor, hrevision⟩ := hv
  obtain ⟨_, hminor', hrevision'⟩ := hw
  omega

theorem init_eq (h : Reads s v) : xmlParserInit doc s =
    if (packed v).toInt < (versionMin doc).toInt ∨ (versionMax doc).toInt < (packed v).toInt then none
    else some (packed v) := by
  rw [xmlParserInit, parse_reads h]
  rfl

theorem min_packed : versionMin doc = packed minimum := by
  cases doc <;> rfl

theorem max_packed : versionMax doc = packed maximum := by
  cases doc <;> rfl

theorem accepts_iff (h : Reads s v) (hfits : v.Fits) :
    (xmlParserInit doc s).isSome ↔ minimum.le v ∧ v.le maximum := by
  have hmin : minimum.Fits := ⟨by decide, by decide, by decide⟩
  have hmax : maximum.Fits := ⟨by decide, by decide, by decide⟩
  rw [init_eq h, min_packed, max_packed, ← packed_le hmin hfits, ← packed_le hfits hmax]
  split
  · simp
    omega
  · simp
    omega

end Ltfs.IndexVersion
