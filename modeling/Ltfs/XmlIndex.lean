import Ltfs.XmlReader
import Ltfs.Lib.Ordered

namespace Ltfs.XmlIndex

open Format XmlReader

/-- What is checked and not kept: names and times (`xml_parse_filename`, `xml_parse_time`), the bodies of
policies and extended attributes, `fs_update_platform_safe_names` over a directory. The block size is that of
the volume the index belongs to, if there is one. -/
structure Checks where
  text : Tag → List Char → Bool
  body : Tag → List Xml → Bool
  names : List Xml → Bool
  blocksize : Option Nat

def makeLtfsVersion (x y z : Nat) : Nat := x * 10000 + y * 100 + z

def idxVersionSparse : Nat := makeLtfsVersion 2 0 0

def idxVersionBackuptime : Nat := makeLtfsVersion 2 0 0

def idxVersionUid : Nat := makeLtfsVersion 2 0 0

/-- The fields of a file's `struct dentry` that the document sets. -/
structure File where
  size : Nat
  uid : Nat
  target : Option (List Char)
  realsize : Nat
  usedBlocks : Nat
  extentlist : List ExtentInfo
  deriving DecidableEq, Repr

structure Index where
  uidNumber : Nat
  symerrCount : Nat
  files : List File
  deriving DecidableEq, Repr

variable (c : Checks) (version : Nat)

/-- `fs_allocate_uid` -/
def fsAllocateUid (uidNumber : Nat) : Nat × Nat :=
  if uidNumber = 0 then (0, 0) else (wrap (uidNumber + 1), wrap (uidNumber + 1))

structure ExtentTags where
  seen : List Tag
  xt : ExtentInfo

def extentTag (s : ExtentTags) (n : Xml) : Option ExtentTags :=
  match n.tag? with
  | some .partition => do
    let seen ← checkTag .partition s.seen
    let p ← textTag n xmlParsePartition
    return { seen, xt := { s.xt with start := { s.xt.start with partition := p } } }
  | some .startblock => do
    let seen ← checkTag .startblock s.seen
    let b ← textTag n xmlParseUll
    return { seen, xt := { s.xt with start := { s.xt.start with block := b } } }
  | some .byteoffset => do
    let seen ← checkTag .byteoffset s.seen
    let b ← textTag n xmlParseUll
    -- the field has 32 bits
    return { seen, xt := { s.xt with byteoffset := b % 2 ^ 32 } }
  | some .bytecount => do
    let seen ← checkTag .bytecount s.seen
    let b ← textTag n xmlParseUll
    return { seen, xt := { s.xt with bytecount := b } }
  | some .fileoffset =>
    if idxVersionSparse ≤ version then do
      let seen ← checkTag .fileoffset s.seen
      let b ← textTag n xmlParseUll
      return { seen, xt := { s.xt with fileoffset := b } }
    else some s
  | _ => some s

/-- `fileoffset + bytecount`, as the code adds them. -/
def extentEnd (x : ExtentInfo) : Nat := wrap (x.fileoffset + x.bytecount)

/-- Where the extent list ends so far. -/
def listEnd (l : List ExtentInfo) : Nat :=
  match l.getLast? with
  | none => 0
  | some x => extentEnd x

/-- The two comparisons of the reverse walk over the extent list. -/
def Fits (a b : ExtentInfo) : Prop := extentEnd a ≤ b.fileoffset

instance : DecidableRel Fits := fun a b => inferInstanceAs (Decidable (extentEnd a ≤ b.fileoffset))

def blocksOf (x : ExtentInfo) : Option Nat → Nat
  | none => 0
  | some blocksize =>
    wrap (x.byteoffset + x.bytecount) / blocksize + if wrap (x.byteoffset + x.bytecount) % blocksize = 0 then 0 else 1

/-- For older index versions the extent starts at the end of the previous one. -/
def oldFileoffset (l : List ExtentInfo) (s : ExtentTags) : Option ExtentTags :=
  if version < idxVersionSparse then do
    let seen ← checkTag .fileoffset s.seen
    return { seen, xt := { s.xt with fileoffset := listEnd l } }
  else some s

/-- `_xml_parse_one_extent` -/
def xmlParseOneExtent (d : File) (children : List Xml) : Option File := do
  let s ← children.foldlM (extentTag version) ⟨[], ⟨⟨0, '\x00'⟩, 0, 0, 0⟩⟩
  let s ← oldFileoffset version d.extentlist s
  checkRequiredTags [.partition, .startblock, .byteoffset, .bytecount, .fileoffset] s.seen
  let extentlist ← Lib.Ordered.insert Fits s.xt d.extentlist
  return { d with
    extentlist
    realsize := wrap (d.realsize + s.xt.bytecount)
    usedBlocks := wrap (d.usedBlocks + blocksOf s.xt c.blocksize) }

def extentsTag (d : File) : Xml → Option File
  | .element t children => if t = .extent then xmlParseOneExtent c version d children else some d
  | .empty t => if t = .extent then none else some d
  | .text _ => some d
  | .other => some d

/-- `_xml_parse_extents` -/
def xmlParseExtents (d : File) (children : List Xml) : Option File :=
  children.foldlM (extentsTag c version) d

mutual

/-- The tags of a file in the order in which the reader meets them: `symlink` is left without
`check_tag_end`, so that what follows its text counts as the file's own. -/
def fileNode : Xml → List Xml
  | .element t [] => [.element t []]
  | .element t (v :: more) =>
    if t = .symlink then .element t [v] :: fileNodes more else [.element t (v :: more)]
  | .empty t => [.empty t]
  | .text v => [.text v]
  | .other => [.other]

def fileNodes : List Xml → List Xml
  | [] => []
  | n :: rest => fileNode n ++ fileNodes rest

end

structure FileTags where
  seen : List Tag
  file : File
  symlinkFlag : Bool
  extentFlag : Bool
  uidNumber : Nat

/-- A tag whose text is checked and not kept. -/
def checkedTag (t : Tag) (seen : List Tag) (n : Xml) : Option (List Tag) := do
  let seen ← checkTag t seen
  textTag n (fun v => accept (c.text t v))
  return seen

/-- `extendedattributes` may be empty. -/
def xattrsTag (seen : List Tag) : Xml → Option (List Tag)
  | .element t children => do
    let seen ← checkTag t seen
    accept (c.body t children)
    return seen
  | .empty t => checkTag t seen
  | .text _ => none
  | .other => none

def fileTag (s : FileTags) (n : Xml) : Option FileTags :=
  match n.tag? with
  | some .name => do return { s with seen := ← checkedTag c .name s.seen n }
  | some .length => do
    let seen ← checkTag .length s.seen
    let size ← textTag n xmlParseUll
    return { s with seen, file := { s.file with size } }
  | some .readonly => do
    let seen ← checkTag .readonly s.seen
    let _ ← textTag n xmlParseBool
    return { s with seen }
  | some .modifytime => do return { s with seen := ← checkedTag c .modifytime s.seen n }
  | some .creationtime => do return { s with seen := ← checkedTag c .creationtime s.seen n }
  | some .accesstime => do return { s with seen := ← checkedTag c .accesstime s.seen n }
  | some .changetime => do return { s with seen := ← checkedTag c .changetime s.seen n }
  | some .extendedattributes => do return { s with seen := ← xattrsTag c s.seen n }
  | some .extentinfo => do
    let seen ← checkTag .extentinfo s.seen
    match n with
    | .element _ children =>
      let file ← xmlParseExtents c version s.file children
      return { s with seen, file, extentFlag := true }
    | _ => return { s with seen, extentFlag := true }
  | some .symlink => do
    let seen ← checkTag .symlink s.seen
    let (v, _) ← getTagText n
    return { s with seen, file := { s.file with target := some v }, symlinkFlag := true }
  | some .fileuid =>
    if idxVersionUid ≤ version then do
      let seen ← checkTag .fileuid s.seen
      let uid ← textTag n xmlParseUll
      return { s with seen, file := { s.file with uid }, uidNumber := max s.uidNumber uid }
    else some s
  | some .backuptime =>
    if idxVersionBackuptime ≤ version then do return { s with seen := ← checkedTag c .backuptime s.seen n }
    else some s
  | _ => some s

def newFile : File := ⟨0, 1, none, 0, 0, []⟩

/-- For older index versions the backup time is the creation time. -/
def oldBackuptime (seen : List Tag) : Option (List Tag) :=
  if version < idxVersionBackuptime then checkTag .backuptime seen else some seen

/-- For older index versions the file gets a new UID. -/
def oldFileuid (s : FileTags) : Option FileTags :=
  if version < idxVersionUid then do
    let seen ← checkTag .fileuid s.seen
    let (uid, uidNumber) := fsAllocateUid s.uidNumber
    return { s with seen, file := { s.file with uid }, uidNumber := max uidNumber uid }
  else some s

/-- The end of `_xml_parse_file`, after its loop. -/
def fileEnd (s : FileTags) (idx : Index) : Option Index := do
  let s ← oldFileuid version s
  let seen ← oldBackuptime version s.seen
  checkRequiredTags
    [.name, .length, .readonly, .modifytime, .creationtime, .accesstime, .changetime, .fileuid, .backuptime] seen
  -- the file is not shorter than its extent list
  accept (listEnd s.file.extentlist ≤ s.file.size)
  accept (s.file.uid ≠ 0)
  return {
    uidNumber := s.uidNumber
    symerrCount := if s.symlinkFlag && s.extentFlag then idx.symerrCount + 1 else idx.symerrCount
    files := idx.files ++ [s.file] }

/-- `_xml_parse_file` -/
def xmlParseFile (children : List Xml) (idx : Index) : Option Index := do
  let s ← (fileNodes children).foldlM (fileTag c version) ⟨[], newFile, false, false, idx.uidNumber⟩
  fileEnd version s idx

structure DirTags where
  seen : List Tag
  uid : Nat

/-- The volume name, which the root directory has in the place of its own and which may be missing. -/
def volumeNameTag (seen : List Tag) : Xml → Option (List Tag)
  | .empty t => checkTag t seen
  | .element t [] => checkTag t seen
  | .element t children => checkedTag c t seen (.element t children)
  | .text _ => none
  | .other => none

def nameTag (root : Bool) (seen : List Tag) (n : Xml) : Option (List Tag) :=
  if root then volumeNameTag c seen n else checkedTag c .name seen n

/-- The tags of `_xml_parse_dirtree` other than `contents`. -/
def dirTag (root : Bool) (s : DirTags) (idx : Index) (n : Xml) : Option (DirTags × Index) :=
  match n.tag? with
  | some .name => do
    let seen ← nameTag c root s.seen n
    return ({ s with seen }, idx)
  | some .readonly => do
    let seen ← checkTag .readonly s.seen
    let _ ← textTag n xmlParseBool
    return ({ s with seen }, idx)
  | some .modifytime => do return ({ s with seen := ← checkedTag c .modifytime s.seen n }, idx)
  | some .creationtime => do return ({ s with seen := ← checkedTag c .creationtime s.seen n }, idx)
  | some .accesstime => do return ({ s with seen := ← checkedTag c .accesstime s.seen n }, idx)
  | some .changetime => do return ({ s with seen := ← checkedTag c .changetime s.seen n }, idx)
  | some .contents => do return ({ s with seen := ← checkTag .contents s.seen }, idx)
  | some .extendedattributes => do return ({ s with seen := ← xattrsTag c s.seen n }, idx)
  | some .fileuid =>
    if idxVersionUid ≤ version then do
      let seen ← checkTag .fileuid s.seen
      let uid ← textTag n xmlParseUll
      return ({ seen, uid }, { idx with uidNumber := max idx.uidNumber uid })
    else some (s, idx)
  | some .backuptime =>
    if idxVersionBackuptime ≤ version then do return ({ s with seen := ← checkedTag c .backuptime s.seen n }, idx)
    else some (s, idx)
  | _ => some (s, idx)

/-- For older index versions a directory gets a new UID; the root has UID 1 from its allocation. -/
def oldDiruid (root : Bool) (s : DirTags) (idx : Index) : Option (DirTags × Index) :=
  if version < idxVersionUid then do
    let seen ← checkTag .fileuid s.seen
    let (uid, uidNumber) := fsAllocateUid idx.uidNumber
    return if root then ({ s with seen }, idx)
      else ({ seen, uid }, { idx with uidNumber := max uidNumber uid })
  else some (s, idx)

/-- The end of `_xml_parse_dirtree`, after its loop. -/
def dirEnd (root : Bool) (s : DirTags) (idx : Index) : Option Index := do
  let (s, idx) ← oldDiruid version root s idx
  let seen ← oldBackuptime version s.seen
  checkRequiredTags
    [.name, .readonly, .modifytime, .creationtime, .accesstime, .changetime, .contents, .fileuid, .backuptime] seen
  accept (if root then s.uid = 1 else s.uid ≠ 1 ∧ s.uid ≠ 0)
  return idx

mutual

def dirtreeTag : Xml → Bool → DirTags → Index → Option (DirTags × Index)
  | .element t children, root, s, idx =>
    if t = .contents then do
      let seen ← checkTag .contents s.seen
      let idx ← dirContentsTags children idx
      accept (c.names children)
      return ({ s with seen }, idx)
    else dirTag c version root s idx (.element t children)
  | .empty t, root, s, idx => dirTag c version root s idx (.empty t)
  | .text _, _, s, idx => some (s, idx)
  | .other, _, s, idx => some (s, idx)

/-- The loop of `_xml_parse_dirtree`. -/
def dirtreeTags : List Xml → Bool → DirTags → Index → Option (DirTags × Index)
  | [], _, s, idx => some (s, idx)
  | n :: rest, root, s, idx => do
    let (s, idx) ← dirtreeTag n root s idx
    dirtreeTags rest root s idx

def dirContentsTag : Xml → Index → Option Index
  | .element t children, idx =>
    if t = .file then xmlParseFile c version children idx
    else if t = .directory then do
      let (s, idx) ← dirtreeTags children false ⟨[], 1⟩ idx
      dirEnd version false s idx
    else some idx
  | .empty t, idx => if t = .file ∨ t = .directory then none else some idx
  | .text _, idx => some idx
  | .other, idx => some idx

/-- The loop of `_xml_parse_dir_contents`. -/
def dirContentsTags : List Xml → Index → Option Index
  | [], idx => some idx
  | n :: rest, idx => do
    let idx ← dirContentsTag n idx
    dirContentsTags rest idx

end

/-- `_xml_parse_dirtree` -/
def xmlParseDirtree (root : Bool) (children : List Xml) (idx : Index) : Option Index := do
  let (s, idx) ← dirtreeTags c version children root ⟨[], 1⟩ idx
  dirEnd version root s idx

structure SchemaTags where
  seen : List Tag
  idx : Index

def schemaTag (s : SchemaTags) (n : Xml) : Option SchemaTags :=
  match n.tag? with
  | some .creator => do
    let seen ← checkTag .creator s.seen
    let _ ← textTag n some
    return { s with seen }
  | some .volumeuuid => do
    let seen ← checkTag .volumeuuid s.seen
    let _ ← textTag n xmlParseUuid
    return { s with seen }
  | some .generationnumber => do
    let seen ← checkTag .generationnumber s.seen
    let _ ← textTag n xmlParseUll
    return { s with seen }
  | some .updatetime => do return { s with seen := ← checkedTag c .updatetime s.seen n }
  | some .allowpolicyupdate => do
    let seen ← checkTag .allowpolicyupdate s.seen
    let _ ← textTag n xmlParseBool
    return { s with seen }
  | some .comment => do return { s with seen := ← checkedTag c .comment s.seen n }
  | some .highestfileuid =>
    if idxVersionUid ≤ version then do
      let seen ← checkTag .highestfileuid s.seen
      let uid ← textTag n xmlParseUll
      return { seen, idx := { s.idx with uidNumber := max s.idx.uidNumber uid } }
    else some s
  | some .location => do
    let seen ← checkTag .location s.seen
    let children ← assertNotEmpty n
    let _ ← xmlScanTapepos children TapeOffset.null
    return { s with seen }
  | some .previousgenerationlocation => do
    let seen ← checkTag .previousgenerationlocation s.seen
    let children ← assertNotEmpty n
    let _ ← xmlScanTapepos children TapeOffset.null
    return { s with seen }
  | some .dataplacementpolicy => do
    let seen ← checkTag .dataplacementpolicy s.seen
    let children ← assertNotEmpty n
    accept (c.body .dataplacementpolicy children)
    return { s with seen }
  | some .directory => do
    let seen ← checkTag .directory s.seen
    let children ← assertNotEmpty n
    let idx ← xmlParseDirtree c version true children s.idx
    return { seen, idx }
  | _ => some s

/-- The attribute `version` of the top-level tag, and what the tag holds. -/
structure Document where
  version : Nat
  children : List Xml

inductive Refusal where
  | badIndex
  | unsupportedIndexVersion
  | symlinkConflict
  deriving DecidableEq, Repr

def oldHighestfileuid (seen : List Tag) : Option (List Tag) :=
  if version < idxVersionUid then checkTag .highestfileuid seen else some seen

def schemaIndex (doc : Document) : Option Index := do
  let s ← doc.children.foldlM (schemaTag c doc.version) ⟨[], ⟨1, 0, []⟩⟩
  let seen ← oldHighestfileuid doc.version s.seen
  checkRequiredTags
    [.creator, .volumeuuid, .generationnumber, .updatetime, .location, .allowpolicyupdate, .directory,
      .highestfileuid] seen
  return s.idx

/-- `_xml_parse_schema` -/
def xmlParseSchema (doc : Document) : Except Refusal Index :=
  if doc.version < makeLtfsVersion 1 0 0 ∨ makeLtfsVersion 2 99 99 < doc.version then
    .error .unsupportedIndexVersion
  else
    match schemaIndex c doc with
    | none => .error .badIndex
    | some idx => if idx.symerrCount ≠ 0 then .error .symlinkConflict else .ok idx

end Ltfs.XmlIndex
