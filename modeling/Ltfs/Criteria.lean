import Mathlib.Data.List.Basic
import Mathlib.Algebra.Order.Ring.Nat

namespace Ltfs.Criteria

/-- The bytes of a C string, without the zero behind them -/
abbrev Str := List UInt8

def bytes (s : String) : Str := s.toList.map fun c => UInt8.ofNat c.toNat

def slash : UInt8 := 47

def colon : UInt8 := 58

def tolower (c : UInt8) : UInt8 := if 65 ≤ c ∧ c ≤ 90 then c + 32 else c

def isalpha (c : UInt8) : Bool := 65 ≤ c && c ≤ 90 || 97 ≤ c && c ≤ 122

def isdigit (c : UInt8) : Bool := 48 ≤ c && c ≤ 57

inductive Opt where
  | name
  | size
  deriving DecidableEq, Repr

def Opt.text : Opt → Str
  | .name => bytes "name="
  | .size => bytes "size="

/-- `! strncasecmp(substr, str, strlen(substr))` -/
def hasPrefix (substr str : Str) : Bool := (str.take substr.length).map tolower = substr.map tolower

def isOption (str : Str) : Bool := hasPrefix Opt.name.text str || hasPrefix Opt.size.text str

/-- The loop that checks which options come after each separator -/
def separatorsValid : Str → Bool
  | [] => true
  | c :: rest => (c ≠ slash || isOption rest) && separatorsValid rest

/-- `index_criteria_contains_invalid_options` -/
def indexCriteriaContainsInvalidOptions (str : Str) : Bool :=
  str.length < 5 || !isOption str || !separatorsValid (str.drop 1)

/-- The loop over the matches of `strcasestr`: the first one behind a '/'. `prev` is the character before `str`. -/
def findStart (substr : Str) (prev : UInt8) : Str → Option Str
  | [] => none
  | c :: rest => if prev = slash ∧ hasPrefix substr (c :: rest) then some (c :: rest) else findStart substr c rest

/-- The match at the start of the string, or else the first valid match -/
def strStart (substr str : Str) : Option Str :=
  if hasPrefix substr str then some str else findStart substr (str.headD 0) (str.drop 1)

/-- The text from an option to the next '/' -/
def optionText (str : Str) : Str := str.takeWhile (· ≠ slash)

def optionEnd (str : Str) : Str := str.dropWhile (· ≠ slash)

theorem hasPrefix_head {o : Opt} {str : Str} (h : hasPrefix o.text str) : ∃ c rest, str = c :: rest ∧ c ≠ slash := by
  cases str with
  | nil => cases o <;> exact absurd h (by decide)
  | cons c rest =>
    refine ⟨c, rest, rfl, ?_⟩
    rintro rfl
    have hhead := congrArg List.head? (of_decide_eq_true h)
    cases o <;> · exact absurd (Option.some.inj hhead) (by decide)

theorem findStart_some {substr : Str} {prev : UInt8} {str start : Str} (h : findStart substr prev str = some start) :
    hasPrefix substr start ∧ start.length ≤ str.length := by
  induction str generalizing prev with
  | nil => cases h
  | cons c rest ih =>
    rw [findStart] at h
    split_ifs at h with hhere
    · cases h
      exact ⟨hhere.2, Nat.le_refl _⟩
    · obtain ⟨hpre, hlen⟩ := ih h
      exact ⟨hpre, Nat.le_succ_of_le hlen⟩

theorem strStart_some {substr str start : Str} (h : strStart substr str = some start) :
    hasPrefix substr start ∧ start.length ≤ str.length := by
  rw [strStart] at h
  split_ifs at h with hhere
  · cases h
    exact ⟨hhere, Nat.le_refl _⟩
  · obtain ⟨hpre, hlen⟩ := findStart_some h
    exact ⟨hpre, Nat.le_trans hlen (by simp)⟩

theorem optionEnd_length {o : Opt} {str start : Str} (h : strStart o.text str = some start) :
    (optionEnd start).length < str.length := by
  obtain ⟨hpre, hlen⟩ := strStart_some h
  obtain ⟨c, rest, rfl, hc⟩ := hasPrefix_head hpre
  rw [optionEnd, List.dropWhile_cons_of_pos (by simpa using hc)]
  exact Nat.lt_of_lt_of_le (Nat.lt_succ_of_le (List.dropWhile_sublist _).length_le) hlen

/-- What a search for an option gives: false without an error, false with the error of an option that occurs twice,
or true with the outputs `start` and `end`. -/
inductive Found where
  | absent
  | error
  | at (start stop : Str)
  deriving DecidableEq, Repr

/-- `index_criteria_find_option` -/
def indexCriteriaFindOption (o : Opt) (str : Str) : Found :=
  if str.length < 5 then .absent
  else
    match _h : strStart o.text str with
    | none => .absent
    | some start =>
      match indexCriteriaFindOption o (optionEnd start) with
      | .at _ _ => .error
      | _ => .at start (optionEnd start)
termination_by str.length
decreasing_by exact optionEnd_length _h

inductive Fault where
  | policyInvalid
  | policyEmptyRule
  | nameTooLong
  | icuError
  | invalidPath
  /-- a read of the character before the buffer -/
  | outside
  deriving DecidableEq, Repr

structure IndexCriteria where
  haveCriteria : Bool
  maxFilesizeCriteria : Nat
  globPatterns : Option (List Str)
  deriving DecidableEq, Repr

/-- Two letters one behind the other -/
def adjacentAlpha : Str → Bool
  | c :: d :: rest => isalpha c && isalpha d || adjacentAlpha (d :: rest)
  | _ => false

def digitsValue (ds : Str) : Nat := ds.foldl (fun n c => 10 * n + (c.toNat - 48)) 0

/-- `strtoull` with base 10, on a text that begins with a digit -/
def strtoull (s : Str) : Nat := min (digitsValue (s.takeWhile isdigit)) (2 ^ 64 - 1)

def unitMultiplier (last : UInt8) : Option Nat :=
  if last = 107 ∨ last = 75 then some 1024
  else if last = 109 ∨ last = 77 then some (1024 * 1024)
  else if last = 103 ∨ last = 71 then some (1024 * 1024 * 1024)
  else none

/-- The part of `index_criteria_parse_size` behind the suffix: the number `rule` with its multiplier -/
def sizeValue (rule : Str) (multiplier : Nat) : Except Fault Nat :=
  match rule with
  | [] => .error .policyInvalid
  | c :: _ => if !isdigit c then .error .policyInvalid else .ok (strtoull rule * multiplier % 2 ^ 64)

/-- The part of `index_criteria_parse_size` behind the copy into `rule`. An empty rule has no last character, and
what is read for it stands before the buffer. -/
def parseSizeRule (rule : Str) : Except Fault Nat :=
  if adjacentAlpha rule then .error .policyInvalid
  else
    match rule.getLast? with
    | none => .error .outside
    | some last =>
      if isalpha last then
        match unitMultiplier last with
        | none => .error .policyInvalid
        | some multiplier => sizeValue rule.dropLast multiplier
      else sizeValue rule 1

/-- `index_criteria_parse_size`: what it stores in `max_filesize_criteria` -/
def indexCriteriaParseSize (criteria : Str) (len : Nat) : Except Fault Nat :=
  parseSizeRule ((criteria.drop Opt.size.text.length).take (len - Opt.size.text.length - 1))

/-- The loop that counts the rules and checks for empty ones. `prev` is the character before. -/
def hasEmptyRule : UInt8 → Str → Bool
  | _, [] => false
  | prev, c :: rest => c = colon && (prev = colon || rest = []) || hasEmptyRule c rest

/-- The loop that assigns rules to `glob_patterns`. No '/' is left in the text of the option. -/
def assignRules (rule : Str) : Str → List Str
  | [] => []
  | c :: rest =>
    if c = colon then rule :: assignRules [] rest
    else if rest = [] then [rule ++ [c]]
    else assignRules (rule ++ [c]) rest

/-- `pathname_strlen` -/
def pathnameStrlen (name : Str) : Nat := (name.filter fun c => c &&& 0x80 = 0 || c &&& 0xC0 = 0xC0).length

def pathnameValidInXml (c : Int) : Bool :=
  !(0 ≤ c && c ≤ 0x1f && c ≠ 0x09 && c ≠ 0x0a && c ≠ 0x0d || 0xd800 ≤ c && c ≤ 0xdfff || c = 0xfffe || c = 0xffff)

/-- The loop of `_pathname_validate`. `u8Next` gives the next code point, which is negative where the text is
ill-formed, and the number of bytes behind its first one. -/
def validateLoop (u8Next : Str → Int × Nat) : Nat → Str → Except Fault Unit
  | _, [] => .ok ()
  | skip + 1, _ :: rest => validateLoop u8Next skip rest
  | 0, b :: rest =>
    let (c, more) := u8Next (b :: rest)
    if c < 0 then .error .icuError
    else if !pathnameValidInXml c || c = 58 || c = 47 then .error .invalidPath
    else validateLoop u8Next more rest

/-- `pathname_validate_file` -/
def pathnameValidateFile (u8Next : Str → Int × Nat) (name : Str) : Except Fault Unit :=
  if 255 < pathnameStrlen name then .error .nameTooLong else validateLoop u8Next 0 name

/-- The loop that validates the rules -/
def validateRules (u8Next : Str → Int × Nat) : List Str → Except Fault Unit
  | [] => .ok ()
  | rule :: rules =>
    match pathnameValidateFile u8Next rule with
    | .ok () => validateRules u8Next rules
    | .error e => .error e

/-- `index_criteria_parse_name`, with enough memory. Behind an empty rule the first loop reads what the buffer
happens to hold there: `junk`, up to the next zero. -/
def indexCriteriaParseName (u8Next : Str → Int × Nat) (junk criteria : Str) (len : Nat) (ic : IndexCriteria) :
    Except Fault Unit × IndexCriteria :=
  let rule := (criteria.take (len - 1)).drop Opt.name.text.length
  if rule.head? = some colon then (.error .policyEmptyRule, ic)
  else if hasEmptyRule (rule.headD 0) (if rule = [] then junk else rule.tail) then (.error .policyEmptyRule, ic)
  else
    let patterns := if assignRules [] rule = [] then [rule] else assignRules [] rule
    (validateRules u8Next patterns, { ic with globPatterns := some patterns })

/-- `index_criteria_free` -/
def indexCriteriaFree (ic : IndexCriteria) : IndexCriteria :=
  if ic.haveCriteria then { haveCriteria := false, maxFilesizeCriteria := 0, globPatterns := none } else ic

/-- The part of `index_criteria_parse` from the size on -/
def parseSizeCriteria (hasName : Bool) (filterrules : Str) (ic : IndexCriteria) : Except Fault Unit × IndexCriteria :=
  let ic := { ic with maxFilesizeCriteria := 0 }
  match indexCriteriaFindOption .size filterrules with
  | .at start stop =>
    match indexCriteriaParseSize start (start.length - stop.length + 1) with
    | .ok n => (.ok (), { ic with maxFilesizeCriteria := n })
    | .error e => (.error e, ic)
  | .error => (.error .policyInvalid, ic)
  | .absent => if hasName then (.error .policyInvalid, ic) else (.ok (), ic)

/-- `index_criteria_parse` of a string -/
def indexCriteriaParse (u8Next : Str → Int × Nat) (junk filterrules : Str) (ic : IndexCriteria) :
    Except Fault Unit × IndexCriteria :=
  let ic := { indexCriteriaFree ic with haveCriteria := true }
  if indexCriteriaContainsInvalidOptions filterrules then (.error .policyInvalid, ic)
  else
    match indexCriteriaFindOption .name filterrules with
    | .at start stop =>
      match indexCriteriaParseName u8Next junk start (start.length - stop.length + 1) ic with
      | (.ok (), ic) => parseSizeCriteria true filterrules ic
      | (.error e, ic) => (.error e, ic)
    | .error => (.error .policyInvalid, ic)
    | .absent => parseSizeCriteria false filterrules ic

end Ltfs.Criteria
