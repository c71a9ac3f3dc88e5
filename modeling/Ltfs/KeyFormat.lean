import Ltfs.Base64
import Mathlib.Algebra.Order.Ring.Nat

namespace Ltfs.KeyFormat

open Base64

abbrev Str := List UInt8

/-- An `unsigned int` -/
def wrap (n : Nat) : Nat := n % 2 ^ 32

def dkLength : Nat := 32
def dkiLength : Nat := 12
def dkiAsciiLength : Nat := 3
def separatorLength : Nat := 1
def keyLength : Nat := ((dkLength * 8 + 5) / 6 + 3) / 4 * 4
def keyaliasLength : Nat := dkiAsciiLength + (dkiLength - dkiAsciiLength) * 2

/-- The pair of a key and a key alias, with the separator between them -/
def pairLength : Nat := keyLength + separatorLength + keyaliasLength

def colon : UInt8 := 58
def slash : UInt8 := 47
def plus : UInt8 := 43

def isAlnum (c : UInt8) : Bool :=
  48 ≤ c && c ≤ 57 || 65 ≤ c && c ≤ 90 || 97 ≤ c && c ≤ 122

def isPrint (c : UInt8) : Bool :=
  32 ≤ c && c ≤ 126

def isXdigit (c : UInt8) : Bool :=
  48 ≤ c && c ≤ 57 || 65 ≤ c && c ≤ 70 || 97 ≤ c && c ≤ 102

/-- A byte of a string, which ends with a NUL -/
def byteAt (s : Str) (i : Nat) : UInt8 := s.getD i 0

/-- `is_key` of the bytes from `i` on -/
def isKey (s : Str) (i : Nat) : Bool :=
  (List.range ((dkLength * 8 + 5) / 6)).all (fun j =>
    isAlnum (byteAt s (i + j)) || byteAt s (i + j) = plus || byteAt s (i + j) = slash) &&
  (List.range' ((dkLength * 8 + 5) / 6) (keyLength - (dkLength * 8 + 5) / 6)).all fun j => byteAt s (i + j) = equalsSign

/-- `is_keyalias` of the bytes from `i` on -/
def isKeyalias (s : Str) (i : Nat) : Bool :=
  (List.range dkiAsciiLength).all (fun j => isPrint (byteAt s (i + j))) &&
  (List.range' dkiAsciiLength ((dkiLength - dkiAsciiLength) * 2)).all fun j => isXdigit (byteAt s (i + j))

inductive Fault where
  | badArg
  | invalidSequence
  | noMemory
  | keyNotFound
  deriving DecidableEq, Repr

/-- The loop of `get_num_of_keys` from the offset `i` on, with a bound on the rounds: the offset and the number of
keys at its end -/
def pairsLoop (s : Str) : Nat → Nat → Nat → Option (Except Fault (Nat × Nat))
  | 0, _, _ => none
  | fuel + 1, i, numOfKeys =>
    let i := if numOfKeys = 0 then i else wrap (i + separatorLength)
    if ¬ isKey s i then some (.error .badArg)
    else
      let i := wrap (i + keyLength)
      if byteAt s i ≠ colon then some (.error .badArg)
      else
        let i := wrap (i + separatorLength)
        if ¬ isKeyalias s i then some (.error .badArg)
        else
          let i := wrap (i + keyaliasLength)
          if wrap (i + separatorLength) + keyLength + separatorLength + keyaliasLength ≤ s.length ∧ byteAt s i = slash then
            pairsLoop s fuel i (numOfKeys + 1)
          else some (.ok (i, numOfKeys + 1))

/-- `get_num_of_keys` -/
def getNumOfKeys (fuel : Nat) (s : Str) : Option (Except Fault Nat) :=
  if keyLength + separatorLength + keyaliasLength ≤ s.length then
    match pairsLoop s fuel 0 0 with
    | none => none
    | some (.error e) => some (.error e)
    | some (.ok (i, numOfKeys)) => some (if i ≠ s.length then .error .badArg else .ok numOfKeys)
  else some (.ok 0)

/-- The `n` bytes from `i` on -/
def slice (s : Str) (i n : Nat) : Str :=
  (List.range n).map fun j => byteAt s (i + j)

/-- `convert_key`. The key is left as `calloc` made it if the text cannot be decoded or there is no memory for it. -/
def convertKey (memory : Bool) (enc : Str) : Str :=
  match base64Decode enc with
  | .error _ => List.replicate dkLength 0
  | .ok (size, dec) => if memory ∧ size = dkLength then dec.take dkLength else List.replicate dkLength 0

def hexDigitValue (c : UInt8) : Nat :=
  if 48 ≤ c ∧ c ≤ 57 then c.toNat - 48 else if 65 ≤ c ∧ c ≤ 70 then c.toNat - 55 else c.toNat - 87

def isSpace (c : UInt8) : Bool :=
  c = 32 || 9 ≤ c && c ≤ 13

/-- `strtoul` with base 16 -/
def strtoul16 (s : Str) : Nat :=
  let s := s.dropWhile isSpace
  let negative := s.head? = some 45
  let s := if s.head? = some 45 ∨ s.head? = some plus then s.tail else s
  let s := if s.head? = some 48 ∧ (s.tail.head? = some 120 ∨ s.tail.head? = some 88) ∧ (s.drop 2).head?.any isXdigit
    then s.drop 2 else s
  let value := (s.takeWhile isXdigit).foldl (fun n c => n * 16 + hexDigitValue c) 0
  if negative then (2 ^ 64 - value) % 2 ^ 64 else value

/-- `convert_keyalias` -/
def convertKeyalias (asciiAndHex : Str) : Str :=
  slice asciiAndHex 0 dkiAsciiLength ++ (List.range (dkiLength - dkiAsciiLength)).map fun i =>
    UInt8.ofNat (strtoul16 (slice asciiAndHex (dkiAsciiLength + i * 2) 2))

structure Key where
  dk : Str
  dki : Str
  deriving DecidableEq, Repr

/-- The entries of the list from one on, read from the offset `offset` on -/
def readKeys (decodes : Nat → Bool) (s : Str) : Nat → Nat → Nat → List Key
  | 0, _, _ => []
  | n + 1, i, offset =>
    let dk := convertKey (decodes i) (slice s offset keyLength)
    let offset := wrap (offset + (keyLength + 1))
    let dki := convertKeyalias (s.drop offset)
    let offset := wrap (offset + (keyaliasLength + 1))
    ⟨dk, dki⟩ :: readKeys decodes s n (i + 1) offset

inductive KflState where
  | uninitialized
  | initialized
  | set
  | cleared
  | destroyed
  deriving DecidableEq, Repr

/-- The state of the manager and the list in the data of the handle -/
structure Manager where
  state : KflState
  dkList : List Key
  deriving DecidableEq, Repr

/-- What memory is there: for the list, for the key alias, for the key, and for decoding a key of the list -/
structure Memory where
  list : Bool
  keyalias : Bool
  key : Bool
  decodes : Nat → Bool

/-- The arguments of a call of `key_format_ltfs_get_key`, the key alias being 12 bytes -/
structure Request where
  keyalias : Option Str
  dkList : Option Str
  dkiForFormat : Option Str
  memory : Memory

/-- What a call leaves: an error or none, the key alias, and the key if it has stored one -/
structure Reply where
  error : Option Fault
  keyalias : Option Str
  key : Option Str
  deriving DecidableEq, Repr

/-- `key_format_ltfs_init`, with enough memory -/
def keyFormatLtfsInit : Manager := ⟨.initialized, []⟩

/-- `set_dk_list` -/
def setDkList (fuel : Nat) (r : Request) (m : Manager) : Option (Except Fault Unit × Manager) :=
  if m.state ≠ .initialized ∧ m.state ≠ .cleared then some (.error .invalidSequence, m)
  else
    match r.dkList with
    | none => some (.ok (), { m with state := .set })
    | some s =>
      match getNumOfKeys fuel s with
      | none => none
      | some (.error e) => some (.error e, m)
      | some (.ok numOfKeys) =>
        if numOfKeys = 0 then some (.ok (), { m with state := .set })
        else if ¬ r.memory.list then some (.error .noMemory, { m with dkList := [] })
        else some (.ok (), ⟨.set, readKeys r.memory.decodes s numOfKeys 0 0⟩)

/-- `get_key` when the key alias is there -/
def findKey (r : Request) (keyalias : Str) (m : Manager) : Reply :=
  match m.dkList.find? fun k => k.dki = keyalias with
  | none => ⟨some .keyNotFound, some keyalias, none⟩
  | some k => if r.memory.key then ⟨none, some keyalias, some k.dk⟩ else ⟨some .noMemory, some keyalias, none⟩

/-- `get_key` -/
def getKey (r : Request) (m : Manager) : Reply :=
  match r.keyalias with
  | some keyalias => findKey r keyalias m
  | none =>
    match r.dkiForFormat with
    | none => ⟨none, none, none⟩
    | some dkiForFormat =>
      if r.memory.keyalias then findKey r (convertKeyalias dkiForFormat) m else ⟨some .noMemory, none, none⟩

/-- `clear` -/
def clear (m : Manager) : Manager :=
  ⟨if m.state = .set then .cleared else m.state, []⟩

/-- `key_format_ltfs_get_key` -/
def keyFormatLtfsGetKey (fuel : Nat) (r : Request) (m : Manager) : Option (Reply × Manager) :=
  match setDkList fuel r m with
  | none => none
  | some (.error e, m) => some (⟨some e, r.keyalias, none⟩, m)
  | some (.ok (), m) => some (getKey r m, clear m)

end Ltfs.KeyFormat
