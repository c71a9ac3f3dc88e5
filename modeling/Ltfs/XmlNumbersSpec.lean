import Ltfs.Lib.Oracle
import Ltfs.XmlNumbers
import Ltfs.XmlSpec

namespace Ltfs.XmlNumbersSpec

open Format Lib.Oracle XmlReader XmlIndex XmlNumbers

/-- The text of a numeric tag, with the type of its field -/
def textOf (width : Width) (n : Xml) : List (Width × List Char) :=
  match getTagText n with
  | some (v, _) => [(width, v)]
  | none => []

def tapeposNumbers (n : Xml) : List (Width × List Char) :=
  match n.tag? with
  | some .startblock => textOf .uint64 n
  | _ => []

def extentNumbers (version : Nat) (n : Xml) : List (Width × List Char) :=
  match n.tag? with
  | some .startblock => textOf .uint64 n
  | some .byteoffset => textOf .uint32 n
  | some .bytecount => textOf .uint64 n
  | some .fileoffset => if idxVersionSparse ≤ version then textOf .uint64 n else []
  | _ => []

def extentsNumbers (version : Nat) : Xml → List (Width × List Char)
  | .element t children => if t = .extent then children.flatMap (extentNumbers version) else []
  | _ => []

def extentinfoNumbers (version : Nat) : Xml → List (Width × List Char)
  | .element _ children => children.flatMap (extentsNumbers version)
  | _ => []

def fileNumbers (version : Nat) (n : Xml) : List (Width × List Char) :=
  match n.tag? with
  | some .length => textOf .uint64 n
  | some .extentinfo => extentinfoNumbers version n
  | some .fileuid => if idxVersionUid ≤ version then textOf .uint64 n else []
  | _ => []

def dirNumbers (version : Nat) (n : Xml) : List (Width × List Char) :=
  match n.tag? with
  | some .fileuid => if idxVersionUid ≤ version then textOf .uint64 n else []
  | _ => []

mutual

def dirtreeNumbers (version : Nat) : Xml → List (Width × List Char)
  | .element t children =>
    if t = .contents then contentsNumbers version children else dirNumbers version (.element t children)
  | .empty t => dirNumbers version (.empty t)
  | .text _ => []
  | .other => []

def treeNumbers (version : Nat) : List Xml → List (Width × List Char)
  | [] => []
  | n :: rest => dirtreeNumbers version n ++ treeNumbers version rest

def entryNumbers (version : Nat) : Xml → List (Width × List Char)
  | .element t children =>
    if t = .file then (fileNodes children).flatMap (fileNumbers version)
    else if t = .directory then treeNumbers version children
    else []
  | .empty _ => []
  | .text _ => []
  | .other => []

def contentsNumbers (version : Nat) : List Xml → List (Width × List Char)
  | [] => []
  | n :: rest => entryNumbers version n ++ contentsNumbers version rest

end

def schemaNumbers (version : Nat) (n : Xml) : List (Width × List Char) :=
  match n.tag?, assertNotEmpty n with
  | some .generationnumber, _ => textOf .uint32 n
  | some .location, some children => children.flatMap tapeposNumbers
  | some .previousgenerationlocation, some children => children.flatMap tapeposNumbers
  | some .highestfileuid, _ => if idxVersionUid ≤ version then textOf .uint64 n else []
  | some .directory, some children => treeNumbers version children
  | _, _ => []

/-- The texts of a document that the parser reads as numbers, with the types of their fields -/
def numbers (doc : XmlIndex.Document) : List (Width × List Char) :=
  doc.children.flatMap (schemaNumbers doc.version)

variable {f g : Reading} {c : Checks} {version : Nat} {n : Xml} {doc : XmlIndex.Document}

section Passes

theorem numberTag_passes (f g : Reading) (width : Width) (n : Xml) :
    Passes f g (textOf width n) (numberTag f width n) (numberTag g width n) := by
  rw [numberTag, numberTag, textTag, textTag, textOf]
  cases getTagText n with
  | none => exact passes_same none
  | some p => exact (passes_ask (width, p.1)).andThen _

/-- A numeric tag, met once -/
theorem oncePasses {α : Type} (t : Tag) (seen : List Tag) (width : Width) (n : Xml) (k : List Tag → Nat → Option α) :
    Passes f g (textOf width n) (do let seen ← checkTag t seen; let b ← numberTag f width n; k seen b)
      (do let seen ← checkTag t seen; let b ← numberTag g width n; k seen b) :=
  .after _ fun seen _ => (numberTag_passes f g width n).andThen (k seen)

theorem passes_ite {α : Type} {qs : List (Width × List Char)} {x y : Option α} (p : Prop) [Decidable p]
    (h : Passes f g qs x y) (z : Option α) :
    Passes f g (if p then qs else []) (if p then x else z) (if p then y else z) := by
  by_cases hp : p
  · rwa [if_pos hp, if_pos hp, if_pos hp]
  · rw [if_neg hp, if_neg hp, if_neg hp]
    exact passes_same z

theorem tapeposTag_passes (s : TapeposTags) (n : Xml) :
    Passes f g (tapeposNumbers n) (XmlNumbers.tapeposTag f s n) (XmlNumbers.tapeposTag g s n) := by
  rw [XmlNumbers.tapeposTag, XmlNumbers.tapeposTag, tapeposNumbers]
  generalize n.tag? = o
  cases o with
  | none => exact passes_same _
  | some t =>
    cases t with
    | startblock => exact oncePasses _ _ _ _ _
    | _ => exact passes_same _

theorem xmlScanTapepos_passes (children : List Xml) (pos : TapeOffset) :
    Passes f g (children.flatMap tapeposNumbers) (XmlNumbers.xmlScanTapepos f children pos)
      (XmlNumbers.xmlScanTapepos g children pos) :=
  (passes_foldlM children (fun s n _ => tapeposTag_passes s n) _).andThen _

theorem extentTag_passes (s : ExtentTags) (n : Xml) :
    Passes f g (extentNumbers version n) (XmlNumbers.extentTag f version s n)
      (XmlNumbers.extentTag g version s n) := by
  rw [XmlNumbers.extentTag, XmlNumbers.extentTag, extentNumbers]
  generalize n.tag? = o
  cases o with
  | none => exact passes_same _
  | some t =>
    cases t with
    | startblock => exact oncePasses _ _ _ _ _
    | byteoffset => exact oncePasses _ _ _ _ _
    | bytecount => exact oncePasses _ _ _ _ _
    | fileoffset => exact passes_ite _ (oncePasses _ _ _ _ _) _
    | _ => exact passes_same _

theorem xmlParseOneExtent_passes (d : File) (children : List Xml) :
    Passes f g (children.flatMap (extentNumbers version)) (XmlNumbers.xmlParseOneExtent f c version d children)
      (XmlNumbers.xmlParseOneExtent g c version d children) :=
  (passes_foldlM children (fun s n _ => extentTag_passes s n) _).andThen _

theorem extentsTag_passes (d : File) (n : Xml) :
    Passes f g (extentsNumbers version n) (XmlNumbers.extentsTag f c version d n)
      (XmlNumbers.extentsTag g c version d n) := by
  cases n with
  | element t children =>
    rw [XmlNumbers.extentsTag, XmlNumbers.extentsTag, extentsNumbers]
    split_ifs
    · exact xmlParseOneExtent_passes d children
    · exact passes_same _
  | empty t => exact passes_same _
  | text v => exact passes_same _
  | other => exact passes_same _

theorem extentinfoTag_passes (d : File) (n : Xml) :
    Passes f g (extentinfoNumbers version n) (extentinfoTag f c version d n) (extentinfoTag g c version d n) := by
  cases n with
  | element t children => exact passes_foldlM children (fun d n _ => extentsTag_passes d n) d
  | empty t => exact passes_same _
  | text v => exact passes_same _
  | other => exact passes_same _

theorem fileTag_passes (s : FileTags) (n : Xml) :
    Passes f g (fileNumbers version n) (XmlNumbers.fileTag f c version s n) (XmlNumbers.fileTag g c version s n) := by
  rw [XmlNumbers.fileTag, XmlNumbers.fileTag, fileNumbers]
  generalize n.tag? = o
  cases o with
  | none => exact passes_same _
  | some t =>
    cases t with
    | length => exact oncePasses _ _ _ _ _
    | extentinfo => exact .after _ fun seen _ => (extentinfoTag_passes s.file n).andThen _
    | fileuid => exact passes_ite _ (oncePasses _ _ _ _ _) _
    | _ => exact passes_same _

theorem xmlParseFile_passes (children : List Xml) (idx : XmlNumbers.Index) :
    Passes f g ((fileNodes children).flatMap (fileNumbers version)) (XmlNumbers.xmlParseFile f c version children idx)
      (XmlNumbers.xmlParseFile g c version children idx) :=
  (passes_foldlM _ (fun s n _ => fileTag_passes s n) _).andThen _

theorem dirTag_passes (root : Bool) (s : DirTags) (idx : XmlNumbers.Index) (n : Xml) :
    Passes f g (dirNumbers version n) (XmlNumbers.dirTag f c version root s idx n)
      (XmlNumbers.dirTag g c version root s idx n) := by
  rw [XmlNumbers.dirTag, XmlNumbers.dirTag, dirNumbers]
  generalize n.tag? = o
  cases o with
  | none => exact passes_same _
  | some t =>
    cases t with
    | fileuid => exact passes_ite _ (oncePasses _ _ _ _ _) _
    | _ => exact passes_same _

mutual

theorem dirtreeTag_passes : (n : Xml) → (root : Bool) → (s : DirTags) → (idx : XmlNumbers.Index) →
    Passes f g (dirtreeNumbers version n) (XmlNumbers.dirtreeTag f c version n root s idx)
      (XmlNumbers.dirtreeTag g c version n root s idx)
  | .element t children, root, s, idx => by
    rw [XmlNumbers.dirtreeTag, XmlNumbers.dirtreeTag, dirtreeNumbers]
    split_ifs
    · exact .after _ fun seen _ => (dirContentsTags_passes children idx).andThen _
    · exact dirTag_passes root s idx _
  | .empty t, root, s, idx => dirTag_passes root s idx (.empty t)
  | .text _, _, _, _ => passes_same _
  | .other, _, _, _ => passes_same _

theorem dirtreeTags_passes : (ns : List Xml) → (root : Bool) → (s : DirTags) → (idx : XmlNumbers.Index) →
    Passes f g (treeNumbers version ns) (XmlNumbers.dirtreeTags f c version ns root s idx)
      (XmlNumbers.dirtreeTags g c version ns root s idx)
  | [], _, _, _ => passes_same _
  | n :: rest, root, s, idx => by
    rw [XmlNumbers.dirtreeTags, XmlNumbers.dirtreeTags, treeNumbers]
    exact (dirtreeTag_passes n root s idx).bind fun a _ => dirtreeTags_passes rest root a.1 a.2

theorem dirContentsTag_passes : (n : Xml) → (idx : XmlNumbers.Index) →
    Passes f g (entryNumbers version n) (XmlNumbers.dirContentsTag f c version n idx)
      (XmlNumbers.dirContentsTag g c version n idx)
  | .element t children, idx => by
    rw [XmlNumbers.dirContentsTag, XmlNumbers.dirContentsTag, entryNumbers]
    split_ifs
    · exact xmlParseFile_passes children idx
    · exact (dirtreeTags_passes children false ⟨[], 1⟩ idx).andThen _
    · exact passes_same _
  | .empty _, _ => passes_same _
  | .text _, _ => passes_same _
  | .other, _ => passes_same _

theorem dirContentsTags_passes : (ns : List Xml) → (idx : XmlNumbers.Index) →
    Passes f g (contentsNumbers version ns) (XmlNumbers.dirContentsTags f c version ns idx)
      (XmlNumbers.dirContentsTags g c version ns idx)
  | [], _ => passes_same _
  | n :: rest, idx => by
    rw [XmlNumbers.dirContentsTags, XmlNumbers.dirContentsTags, contentsNumbers]
    exact (dirContentsTag_passes n idx).bind fun idx' _ => dirContentsTags_passes rest idx'

end

theorem xmlParseDirtree_passes (root : Bool) (children : List Xml) (idx : XmlNumbers.Index) :
    Passes f g (treeNumbers version children) (XmlNumbers.xmlParseDirtree f c version root children idx)
      (XmlNumbers.xmlParseDirtree g c version root children idx) :=
  (dirtreeTags_passes children root ⟨[], 1⟩ idx).andThen _

theorem schemaTag_passes (s : XmlNumbers.SchemaTags) (n : Xml) :
    Passes f g (schemaNumbers version n) (XmlNumbers.schemaTag f c version s n)
      (XmlNumbers.schemaTag g c version s n) := by
  rw [XmlNumbers.schemaTag, XmlNumbers.schemaTag, schemaNumbers]
  generalize assertNotEmpty n = body
  generalize n.tag? = o
  cases o with
  | none => exact passes_same _
  | some t =>
    cases t with
    | generationnumber => exact oncePasses _ _ _ _ _
    | location =>
      refine .after _ fun seen _ => ?_
      cases body with
      | none => exact passes_same _
      | some children => exact (xmlScanTapepos_passes children _).andThen _
    | previousgenerationlocation =>
      refine .after _ fun seen _ => ?_
      cases body with
      | none => exact passes_same _
      | some children => exact (xmlScanTapepos_passes children _).andThen _
    | highestfileuid => exact passes_ite _ (oncePasses _ _ _ _ _) _
    | directory =>
      refine .after _ fun seen _ => ?_
      cases body with
      | none => exact passes_same _
      | some children => exact (xmlParseDirtree_passes true children _).andThen _
    | _ => exact passes_same _

theorem schemaIndex_passes (doc : XmlIndex.Document) :
    Passes f g (numbers doc) (XmlNumbers.schemaIndex f c doc) (XmlNumbers.schemaIndex g c doc) :=
  (passes_foldlM doc.children (fun s n _ => schemaTag_passes s n) _).andThen _

/-- A document that one reading of its numbers accepts is accepted with the same result by every other reading that
agrees on them, and each of them could be read. -/
theorem xmlParseSchema_passes {idx : XmlNumbers.Index} (h : XmlNumbers.xmlParseSchema f c doc = .ok idx)
    (hagree : Agrees f g (numbers doc)) :
    XmlNumbers.xmlParseSchema g c doc = .ok idx ∧ Answers f (numbers doc) := by
  rw [XmlNumbers.xmlParseSchema] at h ⊢
  split_ifs at h ⊢ with hversion
  cases hidx : XmlNumbers.schemaIndex f c doc with
  | none =>
    rw [hidx] at h
    cases h
  | some i =>
    obtain ⟨hg, hans⟩ := schemaIndex_passes doc i hidx hagree
    rw [hidx] at h
    rw [hg]
    exact ⟨h, hans⟩

end Passes

section Number

variable {v : List Char} {k : Nat} {z : Int}

/-- What `strtoull` makes of the integer that it is given: a negative one wraps round, and one that is too large
becomes the largest. -/
def saturate (z : Int) : Nat :=
  if 2 ^ 64 ≤ z.natAbs then 2 ^ 64 - 1 else if z < 0 then wrap (2 ^ 64 - z.natAbs) else z.natAbs

theorem saturate_nat (n : Nat) : saturate n = if 2 ^ 64 ≤ n then 2 ^ 64 - 1 else n := by
  rw [saturate, Int.natAbs_natCast, if_neg (show ¬(n : Int) < 0 by omega)]

theorem saturate_neg (n : Nat) : saturate (-(n : Int)) = if 2 ^ 64 ≤ n then 2 ^ 64 - 1 else wrap (2 ^ 64 - n) := by
  rw [saturate, Int.natAbs_neg, Int.natAbs_natCast]
  cases n with
  | zero => rfl
  | succ n => rw [if_pos (show -((n + 1 : Nat) : Int) < 0 by omega)]

theorem strtoull_eq (v : List Char) : strtoull v = (integer v).map saturate := by
  have hpos : ∀ x : Option Nat, x.map (fun n => if 2 ^ 64 ≤ n then 2 ^ 64 - 1 else n) =
      (x.map fun n : Nat => (n : Int)).map saturate := by
    intro x
    rw [Option.map_map]
    exact congrArg (Option.map · x) (funext fun n => (saturate_nat n).symm)
  have hneg : ∀ x : Option Nat, x.map (fun n => if 2 ^ 64 ≤ n then 2 ^ 64 - 1 else wrap (2 ^ 64 - n)) =
      (x.map fun n : Nat => -(n : Int)).map saturate := by
    intro x
    rw [Option.map_map]
    exact congrArg (Option.map · x) (funext fun n => (saturate_neg n).symm)
  rw [strtoull, integer]
  generalize v.dropWhile isspace = w
  split
  · exact hneg _
  · exact hpos _
  · rename_i c cs hminus hplus
    -- the same case of the other match
    grind
  · rfl

theorem stored_eq (q : Width × List Char) : stored q = (integer q.2).map fun z => saturate z % 2 ^ q.1.bits := by
  have hnil : xmlParseUll q.2 = strtoull q.2 := by
    rw [xmlParseUll]
    split_ifs with h
    · rw [h]
      rfl
    · rfl
  rw [stored, hnil, strtoull_eq, Option.map_map]
  rfl

/-- The integer is not negative, and not too large for the field. -/
def Fits (width : Width) (z : Int) : Prop := 0 ≤ z ∧ z < 2 ^ width.bits

theorem saturate_eq {width : Width} (h : Fits width z) : saturate z % 2 ^ width.bits = z.toNat := by
  obtain ⟨n, rfl⟩ := Int.eq_ofNat_of_zero_le h.1
  have hn : n < 2 ^ width.bits := by exact_mod_cast h.2
  have hle : 2 ^ width.bits ≤ 2 ^ 64 := by cases width <;> decide
  rw [saturate_nat, if_neg (by omega), Int.toNat_natCast]
  exact Nat.mod_eq_of_lt hn

end Number

section Index

theorem numberTag_uint64 (n : Xml) : numberTag stored .uint64 n = textTag n xmlParseUll := by
  rw [numberTag]
  congr 1
  funext v
  rw [stored]
  cases h : xmlParseUll v with
  | none => rfl
  | some k => exact congrArg some (Nat.mod_eq_of_lt (xmlParseUll_lt h))

theorem numberTag_uint32 (n : Xml) : numberTag stored .uint32 n = (textTag n xmlParseUll).map (· % 2 ^ 32) := by
  rw [numberTag, textTag, textTag]
  cases getTagText n with
  | none => rfl
  | some p =>
    obtain ⟨v, rest⟩ := p
    change ((xmlParseUll v).map (· % 2 ^ 32)).bind _ = ((xmlParseUll v).bind _).map _
    cases xmlParseUll v with
    | none => rfl
    | some k =>
      change (checkTagEnd rest).bind _ = ((checkTagEnd rest).bind _).map _
      cases checkTagEnd rest <;> rfl

theorem tapeposTag_stored (s : TapeposTags) (n : Xml) :
    XmlNumbers.tapeposTag stored s n = XmlReader.tapeposTag s n := by
  rw [XmlNumbers.tapeposTag, XmlReader.tapeposTag, numberTag_uint64]
  generalize n.tag? = o
  cases o with
  | none => rfl
  | some t => cases t <;> rfl

theorem extentTag_stored (s : ExtentTags) (n : Xml) :
    XmlNumbers.extentTag stored version s n = XmlIndex.extentTag version s n := by
  rw [XmlNumbers.extentTag, XmlIndex.extentTag, numberTag_uint64, numberTag_uint32]
  generalize n.tag? = o
  cases o with
  | none => rfl
  | some t =>
    cases t with
    | byteoffset =>
      cases checkTag .byteoffset s.seen with
      | none => rfl
      | some seen => cases textTag n xmlParseUll <;> rfl
    | _ => rfl

theorem extentsTag_stored (d : File) (n : Xml) :
    XmlNumbers.extentsTag stored c version d n = XmlIndex.extentsTag c version d n := by
  have htag : XmlNumbers.extentTag stored version = XmlIndex.extentTag version := by
    funext s n
    exact extentTag_stored s n
  cases n with
  | element t children =>
    rw [XmlNumbers.extentsTag, XmlIndex.extentsTag, XmlNumbers.xmlParseOneExtent, XmlIndex.xmlParseOneExtent, htag]
  | empty t => rfl
  | text v => rfl
  | other => rfl

theorem fileTag_stored (s : FileTags) (n : Xml) :
    XmlNumbers.fileTag stored c version s n = XmlIndex.fileTag c version s n := by
  have htag : XmlNumbers.extentsTag stored c version = XmlIndex.extentsTag c version := by
    funext d n
    exact extentsTag_stored d n
  rw [XmlNumbers.fileTag, XmlIndex.fileTag, numberTag_uint64]
  cases htag' : n.tag? with
  | none => rfl
  | some t =>
    cases t with
    | extentinfo =>
      cases n with
      | element t children =>
        simp only [extentinfoTag, XmlNumbers.xmlParseExtents, htag]
        rfl
      | empty t => rfl
      | text v => rfl
      | other => rfl
    | _ => rfl

theorem map_bind {α α' β β' : Type} {x : Option α} {y : Option α'} {q : α → α'} {p : β → β'} {k : α → Option β}
    {k' : α' → Option β'} (hx : x.map q = y) (hk : ∀ a, (k a).map p = k' (q a)) : (x >>= k).map p = y >>= k' := by
  rw [← hx]
  cases x with
  | none => rfl
  | some a => exact hk a

theorem map_bind_same {α β β' : Type} {x : Option α} {p : β → β'} {k : α → Option β} {k' : α → Option β'}
    (hk : ∀ a, (k a).map p = k' a) : (x >>= k).map p = x >>= k' :=
  map_bind x.map_id' hk

theorem map_foldlM {σ τ β : Type} {p : σ → τ} {f : σ → β → Option σ} {f' : τ → β → Option τ}
    (h : ∀ s b, (f s b).map p = f' (p s) b) (bs : List β) (s : σ) : (bs.foldlM f s).map p = bs.foldlM f' (p s) := by
  induction bs generalizing s with
  | nil => rfl
  | cons b bs ih =>
    rw [List.foldlM_cons, List.foldlM_cons]
    exact map_bind (h s b) ih

theorem xmlParseFile_stored (children : List Xml) (idx : XmlNumbers.Index) :
    (XmlNumbers.xmlParseFile stored c version children idx).map XmlNumbers.Index.toIndex =
      XmlIndex.xmlParseFile c version children idx.toIndex := by
  have htag : XmlNumbers.fileTag stored c version = XmlIndex.fileTag c version := by
    funext s n
    exact fileTag_stored s n
  rw [XmlNumbers.xmlParseFile, XmlIndex.xmlParseFile, htag]
  refine map_bind_same fun s => ?_
  cases fileEnd version s idx.toIndex <;> rfl

/-- The state of a directory's tags with the part of the index that both models have -/
def dirState (x : DirTags × XmlNumbers.Index) : DirTags × XmlIndex.Index := (x.1, x.2.toIndex)

theorem dirTag_stored (root : Bool) (s : DirTags) (idx : XmlNumbers.Index) (n : Xml) :
    (XmlNumbers.dirTag stored c version root s idx n).map dirState =
      XmlIndex.dirTag c version root s idx.toIndex n := by
  rw [XmlNumbers.dirTag, numberTag_uint64]
  have hother : ((XmlIndex.dirTag c version root s idx.toIndex n).bind fun x =>
      some (x.1, ({ idx with toIndex := x.2 } : XmlNumbers.Index))).map dirState =
        XmlIndex.dirTag c version root s idx.toIndex n := by
    cases XmlIndex.dirTag c version root s idx.toIndex n <;> rfl
  split
  · rename_i ht
    rw [XmlIndex.dirTag, ht]
    dsimp only
    split_ifs
    · cases checkTag .fileuid s.seen with
      | none => rfl
      | some seen => cases textTag n xmlParseUll <;> rfl
    · rfl
  · exact hother

theorem dirEnd_stored (root : Bool) (s : DirTags) (idx : XmlNumbers.Index) :
    (XmlNumbers.dirEnd version root s idx).map XmlNumbers.Index.toIndex =
      XmlIndex.dirEnd version root s idx.toIndex := by
  rw [XmlNumbers.dirEnd, XmlIndex.dirEnd]
  refine map_bind_same fun x => map_bind_same fun seen => map_bind_same fun _ => map_bind_same fun _ => ?_
  rfl

mutual

theorem dirtreeTag_stored : (n : Xml) → (root : Bool) → (s : DirTags) → (idx : XmlNumbers.Index) →
    (XmlNumbers.dirtreeTag stored c version n root s idx).map dirState =
      XmlIndex.dirtreeTag c version n root s idx.toIndex
  | .element t children, root, s, idx => by
    rw [XmlNumbers.dirtreeTag, XmlIndex.dirtreeTag]
    split_ifs
    · refine map_bind_same fun seen => map_bind (dirContentsTags_stored children idx) fun idx' => ?_
      exact map_bind_same fun _ => rfl
    · exact dirTag_stored root s idx _
  | .empty t, root, s, idx => dirTag_stored root s idx (.empty t)
  | .text _, _, _, _ => rfl
  | .other, _, _, _ => rfl

theorem dirtreeTags_stored : (ns : List Xml) → (root : Bool) → (s : DirTags) → (idx : XmlNumbers.Index) →
    (XmlNumbers.dirtreeTags stored c version ns root s idx).map dirState =
      XmlIndex.dirtreeTags c version ns root s idx.toIndex
  | [], _, _, _ => rfl
  | n :: rest, root, s, idx => by
    rw [XmlNumbers.dirtreeTags, XmlIndex.dirtreeTags]
    exact map_bind (dirtreeTag_stored n root s idx) fun x => dirtreeTags_stored rest root x.1 x.2

theorem dirContentsTag_stored : (n : Xml) → (idx : XmlNumbers.Index) →
    (XmlNumbers.dirContentsTag stored c version n idx).map XmlNumbers.Index.toIndex =
      XmlIndex.dirContentsTag c version n idx.toIndex
  | .element t children, idx => by
    rw [XmlNumbers.dirContentsTag, XmlIndex.dirContentsTag]
    split_ifs
    · exact xmlParseFile_stored children idx
    · exact map_bind (dirtreeTags_stored children false ⟨[], 1⟩ idx) fun x => dirEnd_stored false x.1 x.2
    · rfl
  | .empty t, idx => by
    rw [XmlNumbers.dirContentsTag, XmlIndex.dirContentsTag]
    split_ifs <;> rfl
  | .text _, _ => rfl
  | .other, _ => rfl

theorem dirContentsTags_stored : (ns : List Xml) → (idx : XmlNumbers.Index) →
    (XmlNumbers.dirContentsTags stored c version ns idx).map XmlNumbers.Index.toIndex =
      XmlIndex.dirContentsTags c version ns idx.toIndex
  | [], _ => rfl
  | n :: rest, idx => by
    rw [XmlNumbers.dirContentsTags, XmlIndex.dirContentsTags]
    exact map_bind (dirContentsTag_stored n idx) fun idx' => dirContentsTags_stored rest idx'

end

theorem xmlParseDirtree_stored (root : Bool) (children : List Xml) (idx : XmlNumbers.Index) :
    (XmlNumbers.xmlParseDirtree stored c version root children idx).map XmlNumbers.Index.toIndex =
      XmlIndex.xmlParseDirtree c version root children idx.toIndex :=
  map_bind (dirtreeTags_stored children root ⟨[], 1⟩ idx) fun x => dirEnd_stored root x.1 x.2

def schemaState (s : XmlNumbers.SchemaTags) : XmlIndex.SchemaTags := ⟨s.seen, s.idx.toIndex⟩

theorem xmlScanTapepos_stored (children : List Xml) (pos : TapeOffset) :
    XmlNumbers.xmlScanTapepos stored children pos = XmlReader.xmlScanTapepos children pos := by
  have htag : XmlNumbers.tapeposTag stored = XmlReader.tapeposTag := by
    funext s n
    exact tapeposTag_stored s n
  rw [XmlNumbers.xmlScanTapepos, XmlReader.xmlScanTapepos, htag]

theorem schemaTag_stored (s : XmlNumbers.SchemaTags) (n : Xml) :
    (XmlNumbers.schemaTag stored c version s n).map schemaState =
      XmlIndex.schemaTag c version (schemaState s) n := by
  have hother : (do
      let t ← XmlIndex.schemaTag c version ⟨s.seen, s.idx.toIndex⟩ n
      return { seen := t.seen, idx := { s.idx with toIndex := t.idx } } : Option XmlNumbers.SchemaTags).map schemaState =
        XmlIndex.schemaTag c version (schemaState s) n := by
    change Option.map _ (XmlIndex.schemaTag c version (schemaState s) n >>= _) = _
    cases XmlIndex.schemaTag c version (schemaState s) n <;> rfl
  rw [XmlNumbers.schemaTag, numberTag_uint64, numberTag_uint32]
  split
  · rename_i ht
    rw [XmlIndex.schemaTag, ht]
    refine map_bind_same fun seen => ?_
    cases textTag n xmlParseUll <;> rfl
  · rename_i ht
    rw [XmlIndex.schemaTag, ht]
    refine map_bind_same fun seen => map_bind_same fun children => ?_
    rw [xmlScanTapepos_stored]
    exact map_bind_same fun _ => rfl
  · rename_i ht
    rw [XmlIndex.schemaTag, ht]
    refine map_bind_same fun seen => map_bind_same fun children => ?_
    rw [xmlScanTapepos_stored]
    exact map_bind_same fun _ => rfl
  · rename_i ht
    rw [XmlIndex.schemaTag, ht]
    dsimp only
    split_ifs
    · exact map_bind_same fun seen => map_bind_same fun uid => rfl
    · rfl
  · rename_i ht
    rw [XmlIndex.schemaTag, ht]
    refine map_bind_same fun seen => map_bind_same fun children => ?_
    exact map_bind (xmlParseDirtree_stored true children s.idx) fun idx => rfl
  · exact hother

theorem schemaIndex_stored (doc : XmlIndex.Document) :
    (XmlNumbers.schemaIndex stored c doc).map XmlNumbers.Index.toIndex = XmlIndex.schemaIndex c doc := by
  refine map_bind (map_foldlM (fun s n => schemaTag_stored s n) doc.children _) fun s => ?_
  exact map_bind_same fun seen => map_bind_same fun _ => rfl

/-- What the parser accepts, and the files that it reads, are those of the model without the other numbers. -/
theorem xmlParseSchema_stored {idx : XmlNumbers.Index} (h : XmlNumbers.xmlParseSchema stored c doc = .ok idx) :
    XmlIndex.xmlParseSchema c doc = .ok idx.toIndex := by
  rw [XmlNumbers.xmlParseSchema] at h
  rw [XmlIndex.xmlParseSchema, ← schemaIndex_stored]
  split_ifs at h ⊢
  cases hidx : XmlNumbers.schemaIndex stored c doc with
  | none =>
    rw [hidx] at h
    cases h
  | some i =>
    rw [hidx] at h
    dsimp only [Option.map_some] at h ⊢
    split_ifs at h ⊢
    exact congrArg _ (congrArg _ (Except.ok.inj h))

end Index

/-- No number of the document is negative or too large for its field. -/
def Plain (doc : XmlIndex.Document) : Prop :=
  ∀ q ∈ numbers doc, ∀ z ∈ integer q.2, Fits q.1 z

instance (width : Width) (z : Int) : Decidable (Fits width z) :=
  inferInstanceAs (Decidable (_ ∧ _))

instance (doc : XmlIndex.Document) : Decidable (Plain doc) :=
  inferInstanceAs (Decidable (∀ q ∈ numbers doc, ∀ z ∈ integer q.2, Fits q.1 z))

/-- If the document is accepted, then every number is stored as it is written, and there is none that the field
could not hold. -/
def Exact (c : Checks) (doc : XmlIndex.Document) : Prop :=
  ∀ idx, XmlNumbers.xmlParseSchema stored c doc = .ok idx → XmlNumbers.xmlParseSchema written c doc = .ok idx

theorem written_eq_some {q : Width × List Char} {k : Nat} :
    written q = some k ↔ ∃ z, integer q.2 = some z ∧ Fits q.1 z ∧ z.toNat = k := by
  rw [written]
  cases integer q.2 with
  | none => simp
  | some z => simp [Fits, Option.ite_none_right_eq_some]

/-- Where the numbers are plain, what is stored is what is written. -/
theorem Plain.agrees (h : Plain doc) : Agrees stored written (numbers doc) := by
  intro q hq k hk
  rw [stored_eq, Option.map_eq_some_iff] at hk
  obtain ⟨z, hz, rfl⟩ := hk
  have hfits := h q hq z hz
  exact written_eq_some.2 ⟨z, hz, hfits, (saturate_eq hfits).symm⟩

theorem written_agrees (qs : List (Width × List Char)) : Agrees written stored qs := by
  intro q _ k hk
  obtain ⟨z, hz, hfits, rfl⟩ := written_eq_some.1 hk
  rw [stored_eq, hz, Option.map_some, saturate_eq hfits]

/-- An accepted document is stored exactly just if its numbers are plain. -/
theorem exact_iff {idx : XmlNumbers.Index} (h : XmlNumbers.xmlParseSchema stored c doc = .ok idx) :
    Exact c doc ↔ Plain doc := by
  constructor
  · intro hexact q hq z hz
    obtain ⟨-, hans⟩ := xmlParseSchema_passes (hexact idx h) (written_agrees _)
    obtain ⟨k, hk⟩ := Option.isSome_iff_exists.1 (hans q hq)
    obtain ⟨z', hz', hfits, -⟩ := written_eq_some.1 hk
    obtain rfl : z = z' := Option.some.inj (hz.symm.trans hz')
    exact hfits
  · intro hplain idx' h'
    exact (xmlParseSchema_passes h' hplain.agrees).1

section Sample

open XmlSpec

def plainIndex : XmlNumbers.Index where
  uidNumber := 2
  symerrCount := 0
  files := [reorderedFile]
  generation := 3
  selfptr := ⟨5, 'a'⟩
  backptr := ⟨8, 'b'⟩
  dirs := [1]

theorem exact_iff_reordered :
    XmlNumbers.xmlParseSchema stored checks reordered = .ok plainIndex ∧ Plain reordered ∧ Exact checks reordered :=
  ⟨by decide +kernel, by decide +kernel,
    (exact_iff (show XmlNumbers.xmlParseSchema stored checks reordered = .ok plainIndex by decide +kernel)).2
    (by decide +kernel)⟩

/-- A file of length -1 -/
def minusOne : XmlIndex.Document := oneFile ['-', '1'] []

theorem minusOne_stored : ¬Exact checks minusOne := by
  intro h
  have hfile := h { plainIndex with files := [⟨2 ^ 64 - 1, 2, none, 0, 0, []⟩] } (by decide +kernel)
  exact absurd hfile (by decide +kernel)

end Sample

end Ltfs.XmlNumbersSpec
