import Ltfs.XmlIndex

namespace Ltfs.XmlNumbers

open Format XmlReader XmlIndex

/-- The type of a numeric field -/
inductive Width where
  | uint32
  | uint64
  deriving DecidableEq, Repr

def Width.bits : Width → Nat
  | .uint32 => 32
  | .uint64 => 64

/-- How the text of a numeric tag becomes the value of a field -/
abbrev Reading := Width × List Char → Option Nat

/-- What the parser does: `xml_parse_ull`, and the result is assigned to the field. -/
def stored : Reading := fun q => (xmlParseUll q.2).map (· % 2 ^ q.1.bits)

/-- The integer that a text denotes: blanks, a sign, digits. -/
def integer (v : List Char) : Option Int :=
  match v.dropWhile isspace with
  | '-' :: c :: cs => (digits (c :: cs) 0).map fun n : Nat => -(n : Int)
  | '+' :: c :: cs => (digits (c :: cs) 0).map fun n : Nat => (n : Int)
  | c :: cs => (digits (c :: cs) 0).map fun n : Nat => (n : Int)
  | [] => none

/-- What a parser would do that takes numbers as they are written and refuses those that the field cannot hold -/
def written : Reading := fun q =>
  match integer q.2 with
  | some z => if 0 ≤ z ∧ z < 2 ^ q.1.bits then some z.toNat else none
  | none => none

/-- The numeric fields of an index, with the UIDs of its directories in the order of their ends -/
structure Index extends XmlIndex.Index where
  generation : Nat
  selfptr : TapeOffset
  backptr : TapeOffset
  dirs : List Nat
  deriving DecidableEq

variable (read : Reading) (c : Checks) (version : Nat)

/-- The body of a numeric tag -/
def numberTag (width : Width) (n : Xml) : Option Nat := textTag n fun v => read (width, v)

def tapeposTag (s : TapeposTags) (n : Xml) : Option TapeposTags :=
  match n.tag? with
  | some .startblock => do
    let seen ← checkTag .startblock s.seen
    let block ← numberTag read .uint64 n
    return { seen, pos := { s.pos with block } }
  | _ => XmlReader.tapeposTag s n

/-- `_xml_scan_tapepos` -/
def xmlScanTapepos (children : List Xml) (pos : TapeOffset) : Option TapeOffset := do
  let s ← children.foldlM (tapeposTag read) ⟨[], pos⟩
  checkRequiredTags [.partition, .startblock] s.seen
  return s.pos

def extentTag (s : ExtentTags) (n : Xml) : Option ExtentTags :=
  match n.tag? with
  | some .startblock => do
    let seen ← checkTag .startblock s.seen
    let block ← numberTag read .uint64 n
    return { seen, xt := { s.xt with start := { s.xt.start with block } } }
  | some .byteoffset => do
    let seen ← checkTag .byteoffset s.seen
    let byteoffset ← numberTag read .uint32 n
    return { seen, xt := { s.xt with byteoffset } }
  | some .bytecount => do
    let seen ← checkTag .bytecount s.seen
    let bytecount ← numberTag read .uint64 n
    return { seen, xt := { s.xt with bytecount } }
  | some .fileoffset =>
    if idxVersionSparse ≤ version then do
      let seen ← checkTag .fileoffset s.seen
      let fileoffset ← numberTag read .uint64 n
      return { seen, xt := { s.xt with fileoffset } }
    else some s
  | _ => XmlIndex.extentTag version s n

/-- `_xml_parse_one_extent` -/
def xmlParseOneExtent (d : File) (children : List Xml) : Option File := do
  let s ← children.foldlM (extentTag read version) ⟨[], ⟨⟨0, '\x00'⟩, 0, 0, 0⟩⟩
  let s ← oldFileoffset version d.extentlist s
  checkRequiredTags [.partition, .startblock, .byteoffset, .bytecount, .fileoffset] s.seen
  let extentlist ← Lib.Ordered.insert Fits s.xt d.extentlist
  return { d with
    extentlist
    realsize := wrap (d.realsize + s.xt.bytecount)
    usedBlocks := wrap (d.usedBlocks + blocksOf s.xt c.blocksize) }

def extentsTag (d : File) : Xml → Option File
  | .element t children => if t = .extent then xmlParseOneExtent read c version d children else some d
  | .empty t => if t = .extent then none else some d
  | .text _ => some d
  | .other => some d

/-- `_xml_parse_extents` -/
def xmlParseExtents (d : File) (children : List Xml) : Option File :=
  children.foldlM (extentsTag read c version) d

def extentinfoTag (d : File) : Xml → Option File
  | .element _ children => xmlParseExtents read c version d children
  | _ => some d

def fileTag (s : FileTags) (n : Xml) : Option FileTags :=
  match n.tag? with
  | some .length => do
    let seen ← checkTag .length s.seen
    let size ← numberTag read .uint64 n
    return { s with seen, file := { s.file with size } }
  | some .extentinfo => do
    let seen ← checkTag .extentinfo s.seen
    let file ← extentinfoTag read c version s.file n
    return { s with seen, file, extentFlag := true }
  | some .fileuid =>
    if idxVersionUid ≤ version then do
      let seen ← checkTag .fileuid s.seen
      let uid ← numberTag read .uint64 n
      return { s with seen, file := { s.file with uid }, uidNumber := max s.uidNumber uid }
    else some s
  | _ => XmlIndex.fileTag c version s n

/-- `_xml_parse_file` -/
def xmlParseFile (children : List Xml) (idx : Index) : Option Index := do
  let s ← (fileNodes children).foldlM (fileTag read c version) ⟨[], newFile, false, false, idx.uidNumber⟩
  let i ← fileEnd version s idx.toIndex
  return { idx with toIndex := i }

/-- The tags of `_xml_parse_dirtree` other than `contents` -/
def dirTag (root : Bool) (s : DirTags) (idx : Index) (n : Xml) : Option (DirTags × Index) :=
  match n.tag? with
  | some .fileuid =>
    if idxVersionUid ≤ version then do
      let seen ← checkTag .fileuid s.seen
      let uid ← numberTag read .uint64 n
      return ({ seen, uid }, { idx with uidNumber := max idx.uidNumber uid })
    else some (s, idx)
  | _ => do
    let (s, i) ← XmlIndex.dirTag c version root s idx.toIndex n
    return (s, { idx with toIndex := i })

/-- The end of `_xml_parse_dirtree`, after its loop -/
def dirEnd (root : Bool) (s : DirTags) (idx : Index) : Option Index := do
  let (s, i) ← oldDiruid version root s idx.toIndex
  let seen ← oldBackuptime version s.seen
  checkRequiredTags
    [.name, .readonly, .modifytime, .creationtime, .accesstime, .changetime, .contents, .fileuid, .backuptime] seen
  accept (if root then s.uid = 1 else s.uid ≠ 1 ∧ s.uid ≠ 0)
  return { idx with toIndex := i, dirs := idx.dirs ++ [s.uid] }

mutual

def dirtreeTag : Xml → Bool → DirTags → Index → Option (DirTags × Index)
  | .element t children, root, s, idx =>
    if t = .contents then do
      let seen ← checkTag .contents s.seen
      let idx ← dirContentsTags children idx
      accept (c.names children)
      return ({ s with seen }, idx)
    else dirTag read c version root s idx (.element t children)
  | .empty t, root, s, idx => dirTag read c version root s idx (.empty t)
  | .text _, _, s, idx => some (s, idx)
  | .other, _, s, idx => some (s, idx)

/-- The loop of `_xml_parse_dirtree` -/
def dirtreeTags : List Xml → Bool → DirTags → Index → Option (DirTags × Index)
  | [], _, s, idx => some (s, idx)
  | n :: rest, root, s, idx => do
    let (s, idx) ← dirtreeTag n root s idx
    dirtreeTags rest root s idx

def dirContentsTag : Xml → Index → Option Index
  | .element t children, idx =>
    if t = .file then xmlParseFile read c version children idx
    else if t = .directory then do
      let (s, idx) ← dirtreeTags children false ⟨[], 1⟩ idx
      dirEnd version false s idx
    else some idx
  | .empty t, idx => if t = .file ∨ t = .directory then none else some idx
  | .text _, idx => some idx
  | .other, idx => some idx

/-- The loop of `_xml_parse_dir_contents` -/
def dirContentsTags : List Xml → Index → Option Index
  | [], idx => some idx
  | n :: rest, idx => do
    let idx ← dirContentsTag n idx
    dirContentsTags rest idx

end

/-- `_xml_parse_dirtree` -/
def xmlParseDirtree (root : Bool) (children : List Xml) (idx : Index) : Option Index := do
  let (s, idx) ← dirtreeTags read c version children root ⟨[], 1⟩ idx
  dirEnd version root s idx

structure SchemaTags where
  seen : List Tag
  idx : Index

def schemaTag (s : SchemaTags) (n : Xml) : Option SchemaTags :=
  match n.tag? with
  | some .generationnumber => do
    let seen ← checkTag .generationnumber s.seen
    -- an `unsigned int`
    let generation ← numberTag read .uint32 n
    return { seen, idx := { s.idx with generation } }
  | some .location => do
    let seen ← checkTag .location s.seen
    let children ← assertNotEmpty n
    let selfptr ← xmlScanTapepos read children TapeOffset.null
    return { seen, idx := { s.idx with selfptr } }
  | some .previousgenerationlocation => do
    let seen ← checkTag .previousgenerationlocation s.seen
    let children ← assertNotEmpty n
    let backptr ← xmlScanTapepos read children TapeOffset.null
    return { seen, idx := { s.idx with backptr } }
  | some .highestfileuid =>
    if idxVersionUid ≤ version then do
      let seen ← checkTag .highestfileuid s.seen
      let uid ← numberTag read .uint64 n
      return { seen, idx := { s.idx with uidNumber := max s.idx.uidNumber uid } }
    else some s
  | some .directory => do
    let seen ← checkTag .directory s.seen
    let children ← assertNotEmpty n
    let idx ← xmlParseDirtree read c version true children s.idx
    return { seen, idx }
  | _ => do
    let t ← XmlIndex.schemaTag c version ⟨s.seen, s.idx.toIndex⟩ n
    return { seen := t.seen, idx := { s.idx with toIndex := t.idx } }

/-- The index that `ltfs_index_alloc` makes -/
def newIndex : Index where
  uidNumber := 1
  symerrCount := 0
  files := []
  generation := 0
  selfptr := TapeOffset.null
  backptr := TapeOffset.null
  dirs := []

def schemaIndex (doc : Document) : Option Index := do
  let s ← doc.children.foldlM (schemaTag read c doc.version) ⟨[], newIndex⟩
  let seen ← oldHighestfileuid doc.version s.seen
  checkRequiredTags
    [.creator, .volumeuuid, .generationnumber, .updatetime, .location, .allowpolicyupdate, .directory,
      .highestfileuid] seen
  return s.idx

/-- `_xml_parse_schema` -/
def xmlParseSchema (doc : Document) : Except Refusal Index :=
  if doc.version < makeLtfsVersion 1 0 0 ∨ makeLtfsVersion 2 99 99 < doc.version then
    .error .unsupportedIndexVersion
  else
    match schemaIndex read c doc with
    | none => .error .badIndex
    | some idx => if idx.symerrCount ≠ 0 then .error .symlinkConflict else .ok idx

end Ltfs.XmlNumbers
