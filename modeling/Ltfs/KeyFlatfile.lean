import Ltfs.KeyFormatSpec
import Mathlib.Data.List.TakeWhile

namespace Ltfs.KeyFlatfile

open Base64Spec KeyFormat KeyList KeyBytes KeyFormatSpec Lib.Base64 Split

def newline : UInt8 := 10

/-- `tag[i].name`, "DK=" or "DKi=" -/
def tagName (i : Nat) : Str := if i = 0 then [68, 75, 61] else [68, 75, 105, 61]

/-- What the calls of `fgets` with a buffer of 1024 bytes give for a text, when `line` is in the buffer. -/
def fgetsAll (line : Str) : Str → List Str
  | [] => if line = [] then [] else [line]
  | c :: s => if c = newline ∨ line.length = 1022 then (line ++ [c]) :: fgetsAll [] s else fgetsAll (line ++ [c]) s

/-- A string in memory ends before its first NUL. -/
def cString (s : Str) : Str := s.takeWhile (· ≠ 0)

inductive FileFault where
  | cannotOpen (errno : Nat)
  | badLine
  deriving DecidableEq, Repr

abbrev Answer := Except FileFault Reply

/-- The two lines of a pair, each with the blank lines before it. -/
structure Entry where
  above : Nat
  between : Nat
  pair : Pair

namespace Entry

def lines (e : Entry) : List Str :=
  List.replicate e.above [newline] ++ (tagName 0 ++ (e.pair.digits ++ [pad]) ++ [newline]) ::
    (List.replicate e.between [newline] ++ [tagName 1 ++ (e.pair.ascii ++ e.pair.hex) ++ [newline]])

end Entry

section Lines

variable {s l acc : Str} {ls : List Str} {n : Nat} {es : List Entry}

end Lines

/-- The reply to a key alias is the key of the first pair that has it, or that there is none. -/
def Gives (ps : List Pair) (keyalias : Str) (reply : Reply) : Prop :=
  (∃ before p after dk, ps = before ++ p :: after ∧ p.keyAlias = keyalias ∧ (∀ q ∈ before, q.keyAlias ≠ keyalias) ∧
    p.HasKey dk ∧ reply = ⟨none, some keyalias, some dk⟩) ∨
  (∀ p ∈ ps, p.keyAlias ≠ keyalias) ∧ reply = ⟨some .keyNotFound, some keyalias, none⟩

section Calls

variable {ps : List Pair} {manager manager' : Manager} {m m' : Plugin} {fuel : Nat} {memory : Memory} {reply : Reply}
  {keyalias : Str} {dki : Option Str} {priv : Options} {file : Except Nat Str} {s : Str} {r : Ask} {a : Answer}

end Calls

end Ltfs.KeyFlatfile
