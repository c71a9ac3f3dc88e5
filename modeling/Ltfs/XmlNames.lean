import Ltfs.PathNames
import Ltfs.XmlSpec

namespace Ltfs.XmlNames

open Dentry PathNames XmlReader XmlIndex

/-- `_pathname_valid_in_xml` -/
def pathnameValidInXml (c : Char) : Bool :=
  !(c.toNat ≤ 0x1f && c.toNat ≠ 0x09 && c.toNat ≠ 0x0a && c.toNat ≠ 0x0d ||
    0xd800 ≤ c.toNat && c.toNat ≤ 0xdfff || c.toNat = 0xfffe || c.toNat = 0xffff)

/-- `pathname_validate_file` -/
def pathnameValidateFile (n : Name) : Bool :=
  n.length ≤ filenameMax && n.all (fun c => pathnameValidInXml c && c ≠ ':' && c ≠ '/')

/-- One pass of `fs_update_platform_safe_names_and_hash_table` over the entries that are not in the table yet;
what it gives back is the table and the entries it leaves. The platform-safe name is the name itself, so that no
entry is left for its characters. -/
def updateTable (handleDupName : Bool) : Entries → Entries → Entries × Entries
  | table, [] => (table, [])
  | table, e :: list =>
    if !handleDupName && (fsFindKeyFromHashTable true table (some e.1)).isSome then
      ((updateTable handleDupName table list).1, e :: (updateTable handleDupName table list).2)
    else updateTable handleDupName (fsAddKeyToHashTable {} table e.1 e.2).1 list

/-- `fs_update_platform_safe_names`: the table, and the entries for which it fails. -/
def fsUpdatePlatformSafeNames (list : Entries) : Entries × Entries :=
  let normal := updateTable false [] list
  let dup := updateTable true normal.1 normal.2
  updateTable true dup.1 dup.2

/-- A dentry of the document, with its entries in the order of the document. -/
inductive Node where
  | file (name : Name)
  | dir (name : Name) (list : List Node)

namespace Node

def name : Node → Name
  | .file n => n
  | .dir n _ => n

def list : Node → List Node
  | .file _ => []
  | .dir _ l => l

/-- `child_list`. An entry stands for the dentry at its place in the document. -/
def childList (d : Node) : Entries := (fsUpdatePlatformSafeNames (d.list.map name).zipIdx).1

/-- The dentry at a place of the tree. -/
def at? : Node → List Nat → Option Node
  | d, [] => some d
  | d, i :: place => (d.list[i]?).bind (fun c => c.at? place)

/-- The names on the way to a place. -/
def names : Node → List Nat → Option (List Name)
  | _, [] => some []
  | d, i :: place => (d.list[i]?).bind (fun c => (c.names place).map (c.name :: ·))

/-- `fs_directory_lookup` -/
def directoryLookup (d : Node) (n : Name) : Option Nat :=
  if filenameMax < n.length then none
  else if d.childList = [] then none
  else (fsFindKeyFromHashTable true d.childList (some n)).map Prod.snd

/-- The loop of `fs_path_lookup`. Where a dentry is found, the lookup says where it is. -/
def walk : List Name → Node → Option (List Nat)
  | [], _ => some []
  | n :: rest, d => do
    let i ← d.directoryLookup n
    let c ← d.list[i]?
    let place ← walk rest c
    return i :: place

/-- `fs_path_lookup` -/
def fsPathLookup (root : Node) (path : Name) : Option (List Nat) :=
  if path = [] ∨ path = ['/'] then some [] else walk (pathNames path) root

end Node

section Document

variable (normalize : List Char → Option Name)

/-- `xml_parse_filename`; `normalize` is the conversion to NFC that ICU does for `pathname_normalize`. -/
def xmlParseFilename (v : List Char) : Option Name := do
  let n ← normalize v
  accept (pathnameValidateFile n)
  return n

/-- The text of the `name` of a file or directory. -/
def nameOf (ns : List Xml) : Name :=
  match ns.find? (fun n => n.tag? = some .name) with
  | none => []
  | some n => (textTag n (xmlParseFilename normalize)).getD []

mutual

def contentsNodes : Xml → List Node
  | .element t children => if t = .contents then nodesIn children else []
  | .empty _ => []
  | .text _ => []
  | .other => []

/-- The dentries in a directory. -/
def nodesBelow : List Xml → List Node
  | [] => []
  | n :: rest => contentsNodes n ++ nodesBelow rest

def entryNodes : Xml → List Node
  | .element t children =>
    if t = .file then [.file (nameOf normalize (fileNodes children))]
    else if t = .directory then [.dir (nameOf normalize children) (nodesBelow children)]
    else []
  | .empty _ => []
  | .text _ => []
  | .other => []

def nodesIn : List Xml → List Node
  | [] => []
  | n :: rest => entryNodes n ++ nodesIn rest

end

/-- The root directory of a document. -/
def rootNode (doc : Document) : Node :=
  .dir [] ((XmlExtents.bodies .directory doc.children).flatMap (nodesBelow normalize))

/-- The checks of the parser that are about names, among the others. -/
def nameChecks (c : Checks) : Checks :=
  { c with
    text := fun t v => if t = .name then (xmlParseFilename normalize v).isSome else c.text t v
    names := fun children =>
      (fsUpdatePlatformSafeNames ((nodesIn normalize children).map Node.name).zipIdx).2 = [] }

end Document

end Ltfs.XmlNames
