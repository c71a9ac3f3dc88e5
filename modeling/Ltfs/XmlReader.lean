import Ltfs.Format

namespace Ltfs.XmlReader

open Format

/-- The tag names of an index; a name the parser does not know is `other`. -/
inductive Tag where
  | creator | volumeuuid | generationnumber | updatetime | location | allowpolicyupdate | directory
  | previousgenerationlocation | dataplacementpolicy | comment | highestfileuid
  | name | readonly | modifytime | creationtime | accesstime | changetime | contents | extendedattributes
  | fileuid | backuptime | file | length | extentinfo | symlink
  | extent | partition | startblock | byteoffset | bytecount | fileoffset
  | other (n : Nat)
  deriving DecidableEq, Repr

/-- A node the reader meets inside an element. `other` is a comment or a CDATA section, and only an
element written `<tag/>` is `empty`. -/
inductive Xml where
  | element (tag : Tag) (children : List Xml)
  | empty (tag : Tag)
  | text (value : List Char)
  | other

/-- The tag at which `xml_next_tag` stops. -/
def Xml.tag? : Xml → Option Tag
  | .element t _ => some t
  | .empty t => some t
  | .text _ => none
  | .other => none

@[simp] theorem tag?_element (t : Tag) (cs : List Xml) : (Xml.element t cs).tag? = some t := rfl

@[simp] theorem tag?_empty (t : Tag) : (Xml.empty t).tag? = some t := rfl

/-- `assert_not_empty`: the body of an element that is not written `<tag/>`. -/
def assertNotEmpty : Xml → Option (List Xml)
  | .element _ children => some children
  | .empty _ => none
  | .text _ => none
  | .other => none

/-- `get_tag_text`: the text an element starts with, and the nodes that follow it. -/
def getTagText : Xml → Option (List Char × List Xml)
  | .element _ (.text v :: rest) => if v = [] then none else some (v, rest)
  | _ => none

/-- `check_tag_end`: the end of the element comes before any further tag. -/
def checkTagEnd (rest : List Xml) : Option Unit :=
  if rest.all (fun n => n.tag? = none) then some () else none

/-- `get_tag_text`, the value parser of the tag, `check_tag_end`. -/
def textTag {α : Type} (n : Xml) (parse : List Char → Option α) : Option α := do
  let (v, rest) ← getTagText n
  let a ← parse v
  checkTagEnd rest
  return a

/-- `check_required_tag` and `check_optional_tag`: a tag is met once. -/
def checkTag (t : Tag) (seen : List Tag) : Option (List Tag) :=
  if t ∈ seen then none else some (t :: seen)

@[simp] theorem checkTag_eq_some {t : Tag} {seen seen' : List Tag} :
    checkTag t seen = some seen' ↔ t ∉ seen ∧ seen' = t :: seen := by
  rw [checkTag]
  split_ifs with h
  · simp [h]
  · simp [h, eq_comm]

/-- `check_required_tags` -/
def checkRequiredTags (required seen : List Tag) : Option Unit :=
  if required.all (· ∈ seen) then some () else none

/-- A check of a value that is not kept. -/
def accept (b : Bool) : Option Unit :=
  if b then some () else none

def wrap (n : Nat) : Nat := n % 2 ^ 64

theorem wrap_lt (n : Nat) : wrap n < 2 ^ 64 := Nat.mod_lt _ (by decide)

theorem wrap_of_lt {n : Nat} (h : n < 2 ^ 64) : wrap n = n := Nat.mod_eq_of_lt h

def isspace (c : Char) : Bool :=
  c = ' ' || c = '\t' || c = '\n' || c = '\r' || c = '\x0b' || c = '\x0c'

def digits : List Char → Nat → Option Nat
  | [], n => some n
  | c :: cs, n => if c.isDigit then digits cs (10 * n + (c.toNat - '0'.toNat)) else none

/-- `strtoull` in base ten, with a text that is not used up being an error. A number that does not fit
gives `ULLONG_MAX`, with or without a minus sign. -/
def strtoull (v : List Char) : Option Nat :=
  match v.dropWhile isspace with
  | '-' :: c :: cs => (digits (c :: cs) 0).map (fun n => if 2 ^ 64 ≤ n then 2 ^ 64 - 1 else wrap (2 ^ 64 - n))
  | '+' :: c :: cs => (digits (c :: cs) 0).map (fun n => if 2 ^ 64 ≤ n then 2 ^ 64 - 1 else n)
  | c :: cs => (digits (c :: cs) 0).map (fun n => if 2 ^ 64 ≤ n then 2 ^ 64 - 1 else n)
  | [] => none

/-- `xml_parse_ull` -/
def xmlParseUll (v : List Char) : Option Nat :=
  if v = [] then none else strtoull v

theorem strtoull_lt {v : List Char} {n : Nat} (h : strtoull v = some n) : n < 2 ^ 64 := by
  have hfit : ∀ k : Nat, (if 2 ^ 64 ≤ k then 2 ^ 64 - 1 else k) < 2 ^ 64 := by
    intro k
    split_ifs <;> omega
  have hneg : ∀ k : Nat, (if 2 ^ 64 ≤ k then 2 ^ 64 - 1 else wrap (2 ^ 64 - k)) < 2 ^ 64 := by
    intro k
    split_ifs
    · decide
    · exact wrap_lt _
  rw [strtoull] at h
  split at h
  · obtain ⟨k, -, rfl⟩ := Option.map_eq_some_iff.1 h
    exact hneg k
  · obtain ⟨k, -, rfl⟩ := Option.map_eq_some_iff.1 h
    exact hfit k
  · obtain ⟨k, -, rfl⟩ := Option.map_eq_some_iff.1 h
    exact hfit k
  · cases h

theorem xmlParseUll_lt {v : List Char} {n : Nat} (h : xmlParseUll v = some n) : n < 2 ^ 64 := by
  rw [xmlParseUll] at h
  split_ifs at h
  exact strtoull_lt h

theorem textTag_lt {n : Xml} {k : Nat} (h : textTag n xmlParseUll = some k) : k < 2 ^ 64 := by
  simp only [textTag, Option.bind_eq_bind, Option.bind_eq_some_iff] at h
  obtain ⟨v, -, a, ha, u, -, hk⟩ := h
  obtain rfl : a = k := Option.some.inj hk
  exact xmlParseUll_lt ha

/-- `_xml_parse_partition` -/
def xmlParsePartition : List Char → Option Char
  | [c] => if 'a' ≤ c ∧ c ≤ 'z' then some c else none
  | _ => none

/-- `xml_parse_bool` -/
def xmlParseBool (v : List Char) : Option Bool :=
  if v = ['t', 'r', 'u', 'e'] ∨ v = ['1'] then some true
  else if v = ['f', 'a', 'l', 's', 'e'] ∨ v = ['0'] then some false
  else none

def isHex (c : Char) : Bool :=
  c.isDigit || (decide ('a' ≤ c) && decide (c ≤ 'f')) || (decide ('A' ≤ c) && decide (c ≤ 'F'))

/-- `xml_parse_uuid` -/
def xmlParseUuid (v : List Char) : Option (List Char) :=
  if v.length = 36 ∧ ∀ p ∈ v.zipIdx, if p.2 ∈ [8, 13, 18, 23] then p.1 = '-' else isHex p.1 then
    some (v.map (fun c => if 'A' ≤ c ∧ c ≤ 'F' then c.toLower else c))
  else none

structure TapeposTags where
  seen : List Tag
  pos : TapeOffset

def tapeposTag (s : TapeposTags) (n : Xml) : Option TapeposTags :=
  match n.tag? with
  | some .partition => do
    let seen ← checkTag .partition s.seen
    let c ← textTag n xmlParsePartition
    return { seen, pos := { s.pos with partition := c } }
  | some .startblock => do
    let seen ← checkTag .startblock s.seen
    let b ← textTag n xmlParseUll
    return { seen, pos := { s.pos with block := b } }
  | _ => some s

/-- `_xml_scan_tapepos` -/
def xmlScanTapepos (children : List Xml) (pos : TapeOffset) : Option TapeOffset := do
  let s ← children.foldlM tapeposTag ⟨[], pos⟩
  checkRequiredTags [.partition, .startblock] s.seen
  return s.pos

end Ltfs.XmlReader
