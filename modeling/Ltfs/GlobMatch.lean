import Mathlib.Data.List.Basic
import Ltfs.Lib.Machine

namespace Ltfs.GlobMatch

/-- A string of `UChar`, without the zero behind it -/
abbrev Text := List UInt16

/-- `cr_bnd` and `fi_bnd`: a character from one boundary to the next -/
structure Bnd where
  start : Nat
  stop : Nat
  size : Nat
  deriving DecidableEq, Repr

/-- The members of `filename_ustack_t`. The list of the elements begins with the base of the stack. -/
structure Ustack where
  crBnd : Bnd
  fiBnd : Bnd
  deriving DecidableEq, Repr

section

/- Where the text has the boundaries of its characters -/
variable (bound : Text → Nat → Bool)

/-- `ubrk_following`: the first boundary behind `offset`. The end of the text is one. -/
def ubrkFollowing (text : Text) (offset : Nat) : Option Nat :=
  (List.range' (offset + 1) (text.length - offset)).find? fun i => i = text.length || bound text i

/-- `_next_char`, on an iterator at `it`: the new position of the iterator and the new character -/
def nextChar (str : Text) (it : Nat) (pos : Bnd) : Nat × Bnd :=
  let start := pos.stop
  match ubrkFollowing bound str it with
  | some stop => (stop, ⟨start, stop, stop - start⟩)
  | none =>
    let stop := start + ((str.drop start).takeWhile (· ≠ 0)).length
    (it, ⟨start, stop, stop - start⟩)

/-- `! _char_compare` -/
def charsEqual (str1 : Text) (pos1 : Bnd) (str2 : Text) (pos2 : Bnd) : Bool :=
  pos1.size = pos2.size &&
    (str1.drop pos1.start).take (pos1.stop - pos1.start) = (str2.drop pos2.start).take (pos1.stop - pos1.start)

/-- The character is the single unit `c`. -/
def isChar (str : Text) (pos : Bnd) (c : UInt16) : Bool := str[pos.start]? = some c && pos.size = 1

/-- `_push_ustack` -/
def pushUstack (element : Ustack) : List Ustack → List Ustack
  | [] => [element]
  | base :: _ => [base, element]

structure State where
  ubCriteria : Nat
  crBnd : Bnd
  ubFilename : Nat
  fiBnd : Bnd
  stack : List Ustack
  haveAsterisk : Bool
  deriving DecidableEq, Repr

variable (criteria filename : Text)

/-- Pop an element off the stack, if there is one. -/
def popState (s : State) : State ⊕ Int :=
  match s.stack.getLast? with
  | none => .inr 0
  | some element =>
    let (ubFilename, fiBnd) := nextChar bound filename
      ((ubrkFollowing bound filename element.fiBnd.start).getD filename.length) element.fiBnd
    .inl { ubCriteria := (ubrkFollowing bound criteria element.crBnd.start).getD criteria.length
           crBnd := element.crBnd, ubFilename, fiBnd, stack := s.stack.dropLast, haveAsterisk := true }

/-- Behind the inner loop -/
def afterLoop (s : State) : State ⊕ Int :=
  if s.crBnd.start = s.crBnd.stop ∧ s.fiBnd.start = s.fiBnd.stop then .inr 1 else popState bound criteria filename s

/-- A file name character is consumed. -/
def consume (s : State) : State :=
  let (ubCriteria, crBnd) := nextChar bound criteria s.ubCriteria s.crBnd
  let (ubFilename, fiBnd) := nextChar bound filename s.ubFilename s.fiBnd
  { s with ubCriteria, crBnd, ubFilename, fiBnd }

/-- One round: an asterisk of the pattern, or a file name character, or what comes behind the inner loop -/
def step (s : State) : State ⊕ Int :=
  if s.crBnd.start ≠ s.crBnd.stop then
    if isChar criteria s.crBnd 0x2a then
      let (ubCriteria, crBnd) := nextChar bound criteria s.ubCriteria s.crBnd
      if crBnd.start = crBnd.stop then .inr 1 else .inl { s with ubCriteria, crBnd, haveAsterisk := true }
    else if s.fiBnd.start = s.fiBnd.stop then afterLoop bound criteria filename s
    else
      let acceptany := isChar criteria s.crBnd 0x3f
      if s.haveAsterisk then
        if acceptany || charsEqual criteria s.crBnd filename s.fiBnd then
          .inl { consume bound criteria filename s with
                 stack := pushUstack ⟨s.crBnd, s.fiBnd⟩ s.stack, haveAsterisk := false }
        else
          let (ubFilename, fiBnd) := nextChar bound filename s.ubFilename s.fiBnd
          .inl { s with ubFilename, fiBnd }
      else if acceptany || charsEqual criteria s.crBnd filename s.fiBnd then .inl (consume bound criteria filename s)
      else popState bound criteria filename s
  else afterLoop bound criteria filename s

def init : State :=
  let (ubCriteria, crBnd) := nextChar bound criteria 0 ⟨0, 0, 0⟩
  let (ubFilename, fiBnd) := nextChar bound filename 0 ⟨0, 0, 0⟩
  { ubCriteria, crBnd, ubFilename, fiBnd, stack := [], haveAsterisk := false }

/-- `_matches_name_criteria_caseless`, with at most `k` rounds and enough memory -/
def matchesNameCriteriaCaseless (k : Nat) : Option Int :=
  if criteria = [] ∧ filename = [] then some 1
  else if criteria = [] then some 0
  else Machine.run (step bound criteria filename) k (init bound criteria filename)

end

end Ltfs.GlobMatch
