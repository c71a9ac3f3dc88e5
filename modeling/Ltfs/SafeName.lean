import Mathlib.Data.List.DropRight

namespace Ltfs.SafeName

/-- `LTFS_FILENAME_MAX` -/
def ltfsFilenameMax : Nat := 255

def isInvalid (c : Char) : Bool :=
  (1 ≤ c.toNat && c.toNat ≤ 0x1F) || ['\\', ':', '*', '?', '"', '<', '>', '|'].contains c

def dosdevList : List String :=
  ["CON", "PRN", "AUX", "CLOCK$", "NUL", "COM0", "COM1", "COM2", "COM3", "COM4", "COM5", "COM6", "COM7", "COM8",
    "COM9", "LPT0", "LPT1", "LPT2", "LPT3", "LPT4", "LPT5", "LPT6", "LPT7", "LPT8", "LPT9"]

/-- The name is this device, in any case, up to its end or its first dot. -/
def namesDevice (name dev : List Char) : Bool :=
  (name.take dev.length).map Char.toUpper = dev &&
    ((name.drop dev.length).head? = none || (name.drop dev.length).head? = some '.')

def isDosdev (name : List Char) : Bool :=
  dosdevList.any fun dev => namesDevice name dev.toList

/-- What `_replace_invalid_chars` leaves of the name, and whether it returns true. -/
def replaceInvalidChars (name : List Char) : List Char × Bool :=
  (name.map fun c => if isInvalid c then '_' else c, isDosdev name || name.any isInvalid)

/-- The base name and the extension: from the first dot on for a device, else from the last one on unless
the name starts with it. -/
def splitName (dosdev : Bool) (name : List Char) : List Char × Option (List Char) :=
  if '.' ∉ name then (name, none)
  else if dosdev then (name.takeWhile (· ≠ '.'), some (name.dropWhile (· ≠ '.')).tail)
  else if (name.rdropWhile (· ≠ '.')).dropLast = [] then (name, none)
  else ((name.rdropWhile (· ≠ '.')).dropLast, some (name.rtakeWhile (· ≠ '.')))

def join (base : List Char) : Option (List Char) → List Char
  | some e => base ++ '.' :: e
  | none => base

/-- `~%d` -/
def suffixString (suffix : Nat) : List Char :=
  '~' :: Nat.toDigits 10 suffix

def extLength (e : Option (List Char)) : Nat :=
  (e.getD []).length

/-- `_generate_target_file_name`. The lengths do not count the dot between base name and extension. -/
def generateTargetFileName (base : List Char) (extension : Option (List Char)) (suffix : Nat) (dosdev : Bool) :
    Option (List Char) :=
  if suffix ≠ 0 then
    let s := suffixString suffix
    if ltfsFilenameMax < base.length + extLength extension + s.length then
      if dosdev = false ∧ s.length < base.length then
        some (join (base.take (base.length - s.length) ++ s) extension)
      else if s.length < extLength extension then
        some (join (base ++ s) (extension.map (·.take (extLength extension - s.length))))
      else none
    else some (join (base ++ s) extension)
  else if join base extension = [] then none
  else some (join base extension)

/-- What becomes of `platform_safe_name`: `skipped` and `unnamed` leave it NULL. -/
inductive Result where
  | skipped
  | unnamed
  | named (name : List Char)
  | running
  deriving DecidableEq, Repr

variable {K : Type} [DecidableEq K] (key : List Char → K)

/-- The loop, with the names in the parent directory if there is one. A lookup compares hash keys, and it
refuses a long name. -/
def nameLoop (parent : Option (List (List Char))) (base : List Char) (extension : Option (List Char))
    (dosdev : Bool) : Nat → Nat → Result
  | 0, _ => .running
  | fuel + 1, suffix =>
    match generateTargetFileName base extension suffix dosdev with
    | none => .unnamed
    | some target =>
      match parent with
      | none => .named target
      | some entries =>
        if ltfsFilenameMax < target.length then .unnamed
        else if key target ∈ entries.map key then nameLoop parent base extension dosdev fuel (suffix + 1)
        else .named target

def firstSuffix (name : List Char) : Nat :=
  if (replaceInvalidChars name).2 then 1 else 0

def baseOf (name : List Char) : List Char :=
  (splitName (isDosdev name) (replaceInvalidChars name).1).1

def extensionOf (name : List Char) : Option (List Char) :=
  (splitName (isDosdev name) (replaceInvalidChars name).1).2

/-- `update_platform_safe_name` of the Windows build, with as many rounds of the loop as there are names
in the directory and two more. -/
def updatePlatformSafeName (parent : Option (List (List Char))) (name : List Char) (handleInvalidChar : Bool) :
    Result :=
  if (replaceInvalidChars name).2 = true ∧ handleInvalidChar = false then .skipped
  else nameLoop key parent (baseOf name) (extensionOf name) (isDosdev name) ((parent.getD []).length + 2)
    (firstSuffix name)

/-- `fs_add_key_to_hash_table`, for an entry that has got a name. -/
def addEntry (entries : List (List Char)) : Result → List (List Char)
  | .named t => entries ++ [t]
  | _ => entries

end Ltfs.SafeName
