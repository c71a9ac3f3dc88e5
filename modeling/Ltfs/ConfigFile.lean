import Ltfs.Lib.Keyed
import Ltfs.Lib.Recursive

namespace Ltfs.ConfigFile

open Lib.Keyed Lib.Program Lib.Recursive

abbrev Text := List Char

def blanks : Text := [' ', '\t', '\r', '\n']

/-- `strtok_r(NULL, delims, &saveptr)`: the next token, and the text behind the delimiter that ends it -/
def strtok (delims saveptr : Text) : Option (Text × Text) :=
  match saveptr.dropWhile (· ∈ delims) with
  | [] => none
  | c :: s => some ((c :: s).takeWhile (· ∉ delims), ((c :: s).dropWhile (· ∉ delims)).tail)

/-- What the calls of `fgets` with a buffer of 65536 characters give for a text, when `line` is in the buffer. -/
def fgetsAll (line : Text) : Text → List Text
  | [] => if line = [] then [] else [line]
  | c :: s =>
    if c = '\n' ∨ line.length = 65534 then (line ++ [c]) :: fgetsAll [] s else fgetsAll (line ++ [c]) s

/-- A string in memory ends before its first NUL. -/
def cString (s : Text) : Text :=
  s.takeWhile (· ≠ '\x00')

/-- The line without its comment and the blanks at its end -/
def stripLine (line : Text) : Text :=
  ((line.takeWhile (· ≠ '#')).reverse.dropWhile (· ∈ blanks)).reverse

structure PluginEntry where
  type : Text
  name : Text
  library : Text
  deriving DecidableEq, Repr

def PluginEntry.key (e : PluginEntry) : Text × Text :=
  (e.type, e.name)

/-- An entry of `default_plugins`, which has no library -/
structure DefaultEntry where
  type : Text
  name : Text
  deriving DecidableEq, Repr

structure ConfigFile where
  plugins : List PluginEntry
  defaultPlugins : List DefaultEntry
  deriving DecidableEq, Repr

inductive Fault where
  | cannotOpen (errno : Nat)
  | configInvalid
  deriving DecidableEq, Repr

/-- The rest of a line has to be one name. -/
def oneName (saveptr : Text) : Option Text :=
  match strtok blanks saveptr with
  | none => none
  | some (a, saveptr) => if strtok blanks saveptr = none then some a else none

/-- The rest of a line has to be two names. -/
def twoNames (saveptr : Text) : Option (Text × Text) :=
  match strtok blanks saveptr with
  | none => none
  | some (a, saveptr) =>
    match strtok blanks saveptr with
    | none => none
    | some (b, saveptr) => if strtok blanks saveptr = none then some (a, b) else none

/-- Two names, and the rest of the line, blanks included, as a path. -/
def namesAndPath (saveptr : Text) : Option (Text × Text × Text) :=
  match strtok blanks saveptr with
  | none => none
  | some (a, saveptr) =>
    match strtok blanks saveptr with
    | none => none
    | some (b, saveptr) =>
      match strtok ['\r', '\n'] saveptr with
      | none => none
      | some (c, _) => some (a, b, c)

variable (saveptr : Text) (config : ConfigFile)

/-- `_config_file_parse_name` -/
def configFileParseName : Except Fault Text :=
  match oneName saveptr with
  | none => .error .configInvalid
  | some name => .ok name

/-- `_config_file_parse_default` -/
def configFileParseDefault : Except Fault ConfigFile :=
  match twoNames saveptr with
  | none => .error .configInvalid
  | some (type, name) =>
    .ok { config with defaultPlugins := put DefaultEntry.type ⟨type, name⟩ config.defaultPlugins }

/-- `_config_file_remove_default` -/
def configFileRemoveDefault : Except Fault ConfigFile :=
  match oneName saveptr with
  | none => .error .configInvalid
  | some type =>
    if config.defaultPlugins.any (·.type = type) then
      .ok { config with defaultPlugins := remove DefaultEntry.type type config.defaultPlugins }
    else .error .configInvalid

/-- `_config_file_parse_plugin` -/
def configFileParsePlugin : Except Fault ConfigFile :=
  match namesAndPath saveptr with
  | none => .error .configInvalid
  | some (type, name, library) =>
    .ok { config with plugins := put PluginEntry.key ⟨type, name, library⟩ config.plugins }

/-- `_config_file_remove_plugin`. It is no error if there is no such plugin. -/
def configFileRemovePlugin : Except Fault ConfigFile :=
  match twoNames saveptr with
  | none => .error .configInvalid
  | some (type, name) => .ok { config with plugins := remove PluginEntry.key (type, name) config.plugins }

/-- `_config_file_parse_option`, only whether it succeeds -/
def configFileParseOption : Except Fault ConfigFile :=
  match strtok blanks saveptr with
  | none => .error .configInvalid
  | some (_, saveptr) =>
    match strtok blanks saveptr with
    | none => .error .configInvalid
    | some _ => .ok config

/-- A call of `_config_file_parse`. It changes the configuration in place. -/
structure Call where
  path : Text
  ignoreError : Bool
  config : ConfigFile
  deriving DecidableEq, Repr

structure Outcome where
  error : Option Fault
  config : ConfigFile
  deriving DecidableEq, Repr

abbrev Parse := Prog Call (fun _ => Outcome) Outcome

def pluginWord : Text := ['p', 'l', 'u', 'g', 'i', 'n']
def defaultWord : Text := ['d', 'e', 'f', 'a', 'u', 'l', 't']
def optionWord : Text := ['o', 'p', 't', 'i', 'o', 'n']
def includeWord : Text := ['i', 'n', 'c', 'l', 'u', 'd', 'e']
def includeNoerrorWord : Text := includeWord ++ ['_', 'n', 'o', 'e', 'r', 'r', 'o', 'r']

/-- An error of a directive ends the parse, with what came before it done. -/
def orOut (r : Except Fault ConfigFile) (next : ConfigFile → Parse) : Parse :=
  match r with
  | .error e => .ret ⟨some e, config⟩
  | .ok config => next config

/-- `_config_file_parse` from a line of the file on -/
def parseLines : List Text → ConfigFile → Parse
  | [], config => .ret ⟨none, config⟩
  | chunk :: rest, config =>
    if (cString chunk).length = 65535 then .ret ⟨some .configInvalid, config⟩
    else
      match strtok blanks (stripLine (cString chunk)) with
      | none => parseLines rest config
      | some (tok, saveptr) =>
        if tok = pluginWord then orOut config (configFileParsePlugin saveptr config) (parseLines rest)
        else if tok = defaultWord then orOut config (configFileParseDefault saveptr config) (parseLines rest)
        else if tok = optionWord then orOut config (configFileParseOption saveptr config) (parseLines rest)
        else if tok = includeWord then
          match configFileParseName saveptr with
          | .error e => .ret ⟨some e, config⟩
          | .ok includeFile => .act ⟨includeFile, false, config⟩ fun r =>
            match r.error with
            | some e => .ret ⟨some e, r.config⟩
            | none => parseLines rest r.config
        else if tok = includeNoerrorWord then
          match configFileParseName saveptr with
          | .error e => .ret ⟨some e, config⟩
          | .ok includeFile => .act ⟨includeFile, true, config⟩ fun r => parseLines rest r.config
        else if tok = '-' :: defaultWord then
          orOut config (configFileRemoveDefault saveptr config) (parseLines rest)
        else if tok = '-' :: pluginWord then
          orOut config (configFileRemovePlugin saveptr config) (parseLines rest)
        else parseLines rest config

/-- The files: the error with which a path cannot be opened, or what is read from it -/
abbrev Files := Text → Except Nat Text

variable (fopen : Files)

/-- `_config_file_parse` -/
def configFileParse (k : Call) : Parse :=
  match fopen k.path with
  | .error errno => .ret ⟨if k.ignoreError then none else some (.cannotOpen errno), k.config⟩
  | .ok text => parseLines (fgetsAll [] text) k.config

/-- `config_file_get_default_plugin` -/
def configFileGetDefaultPlugin (type : Text) : Option Text :=
  (config.defaultPlugins.find? (·.type = type)).map (·.name)

/-- `config_file_get_lib` -/
def configFileGetLib (type name : Text) : Option Text :=
  (config.plugins.find? fun e => e.type = type ∧ e.name = name).map (·.library)

theorem flatten_fgetsAll (line text : Text) : (fgetsAll line text).flatten = line ++ text := by
  induction text generalizing line with
  | nil =>
    rw [fgetsAll]
    by_cases h : line = []
    · simp [h]
    · simp [h]
  | cons c s ih =>
    rw [fgetsAll]
    split_ifs
    · rw [List.flatten_cons, ih]
      simp
    · rw [ih]
      simp

end Ltfs.ConfigFile
