import Ltfs.ConfigFile

namespace Ltfs.ConfigSpec

open ConfigFile Lib.Keyed Lib.Program Lib.Recursive

inductive Directive where
  | default (type name : Text)
  | noDefault (type : Text)
  | plugin (type name library : Text)
  | noPlugin (type name : Text)
  deriving DecidableEq, Repr

/-- What a line of a file says -/
inductive Line where
  | nothing
  | wrong
  | does (d : Directive)
  | includes (path : Text) (ignoreError : Bool)
  deriving DecidableEq, Repr

def Line.ofOption {α : Type} (f : α → Line) : Option α → Line
  | none => .wrong
  | some a => f a

/-- The line of a directive with its arguments in `saveptr` -/
def lineOfWord (tok saveptr : Text) : Line :=
  if tok = pluginWord then .ofOption (fun a => .does (.plugin a.1 a.2.1 a.2.2)) (namesAndPath saveptr)
  else if tok = defaultWord then .ofOption (fun a => .does (.default a.1 a.2)) (twoNames saveptr)
  else if tok = optionWord then
    .ofOption (fun a => .ofOption (fun _ => .nothing) (strtok blanks a.2)) (strtok blanks saveptr)
  else if tok = includeWord then .ofOption (.includes · false) (oneName saveptr)
  else if tok = includeNoerrorWord then .ofOption (.includes · true) (oneName saveptr)
  else if tok = '-' :: defaultWord then .ofOption (fun a => .does (.noDefault a)) (oneName saveptr)
  else if tok = '-' :: pluginWord then .ofOption (fun a => .does (.noPlugin a.1 a.2)) (twoNames saveptr)
  else .nothing

def lineOf (chunk : Text) : Line :=
  if (cString chunk).length = 65535 then .wrong
  else
    match strtok blanks (stripLine (cString chunk)) with
    | none => .nothing
    | some (tok, saveptr) => lineOfWord tok saveptr

namespace Directive

/-- What a directive makes of the default of a type, if it is about that -/
def onDefault (type : Text) : Directive → Option (Option Text)
  | .default t name => if type = t then some (some name) else none
  | .noDefault t => if type = t then some none else none
  | _ => none

/-- What a directive makes of the library of a plugin, if it is about that -/
def onLibrary (type name : Text) : Directive → Option (Option Text)
  | .plugin t n library => if type = t ∧ name = n then some (some library) else none
  | .noPlugin t n => if type = t ∧ name = n then some none else none
  | _ => none

end Directive

/-- What directives make of a value one after the other -/
def foldOf (on : Directive → Option (Option Text)) (ds : List Directive) : Option Text :=
  ds.foldl (fun now d => (on d).getD now) none

/-- The default of a type that a list of directives adds up to -/
def defaultOf (ds : List Directive) (type : Text) : Option Text :=
  foldOf (Directive.onDefault type) ds

def libraryOf (ds : List Directive) (type name : Text) : Option Text :=
  foldOf (Directive.onLibrary type name) ds

/-- There has to be a default for it to be taken back. -/
def Allowed (before : List Directive) : Directive → Prop
  | .noDefault type => defaultOf before type ≠ none
  | _ => True

variable (fopen : Files)

/-- Lines are read after the directives `before`. They come to the directives `ds`, those of the files that they
include in their places, and to an error unless `ok`. -/
inductive Reads : List Directive → List Text → List Directive → Bool → Prop
  | done {before} : Reads before [] [] true
  | nothing {before line rest ds ok} (hline : lineOf line = .nothing) (hrest : Reads before rest ds ok) :
    Reads before (line :: rest) ds ok
  | wrong {before line rest} (hline : lineOf line = .wrong) : Reads before (line :: rest) [] false
  | does {before line rest d ds ok} (hline : lineOf line = .does d) (hd : Allowed before d)
    (hrest : Reads (before ++ [d]) rest ds ok) : Reads before (line :: rest) (d :: ds) ok
  | refused {before line rest d} (hline : lineOf line = .does d) (hd : ¬ Allowed before d) :
    Reads before (line :: rest) [] false
  | missing {before line rest path errno} (hline : lineOf line = .includes path false)
    (hopen : fopen path = .error errno) : Reads before (line :: rest) [] false
  | passed {before line rest path errno ds ok} (hline : lineOf line = .includes path true)
    (hopen : fopen path = .error errno) (hrest : Reads before rest ds ok) : Reads before (line :: rest) ds ok
  | failed {before line rest path text ds} (hline : lineOf line = .includes path false) (hopen : fopen path = .ok text)
    (hfile : Reads before (fgetsAll [] text) ds false) : Reads before (line :: rest) ds false
  | included {before line rest path ignoreError text inner innerOk ds ok}
    (hline : lineOf line = .includes path ignoreError) (hopen : fopen path = .ok text)
    (hfile : Reads before (fgetsAll [] text) inner innerOk) (hok : innerOk = true ∨ ignoreError = true)
    (hrest : Reads (before ++ inner) rest ds ok) : Reads before (line :: rest) (inner ++ ds) ok

/-- The configuration is what the directives add up to, with one entry for each type and for each plugin. -/
structure Represents (ds : List Directive) (config : ConfigFile) : Prop where
  defaults : ∀ type, configFileGetDefaultPlugin config type = defaultOf ds type
  libraries : ∀ type name, configFileGetLib config type name = libraryOf ds type name
  defaultsOnce : Distinct DefaultEntry.type config.defaultPlugins
  pluginsOnce : Distinct PluginEntry.key config.plugins

/-- How a directive changes a configuration -/
def apply (config : ConfigFile) : Directive → Except Fault ConfigFile
  | .default type name =>
    .ok { config with defaultPlugins := put DefaultEntry.type ⟨type, name⟩ config.defaultPlugins }
  | .noDefault type =>
    if config.defaultPlugins.any (·.type = type) then
      .ok { config with defaultPlugins := remove DefaultEntry.type type config.defaultPlugins }
    else .error .configInvalid
  | .plugin type name library =>
    .ok { config with plugins := put PluginEntry.key ⟨type, name, library⟩ config.plugins }
  | .noPlugin type name => .ok { config with plugins := remove PluginEntry.key (type, name) config.plugins }

/-- How the parse goes on with a line -/
def follow (config : ConfigFile) (next : ConfigFile → Parse) : Line → Parse
  | .nothing => next config
  | .wrong => .ret ⟨some .configInvalid, config⟩
  | .does d => orOut config (apply config d) next
  | .includes path false => .act ⟨path, false, config⟩ fun r =>
    match r.error with
    | some e => .ret ⟨some e, r.config⟩
    | none => next r.config
  | .includes path true => .act ⟨path, true, config⟩ fun r => next r.config

variable {fopen} {config config' : ConfigFile} {chunk tok saveptr : Text} {rest lines : List Text}
  {ds before after : List Directive} {d : Directive} {type name : Text}

/-- A step of the parse is told by what the line says. -/
theorem parseLines_cons (chunk : Text) (rest : List Text) (config : ConfigFile) :
    parseLines (chunk :: rest) config = follow config (parseLines rest) (lineOf chunk) := by
  rw [parseLines, lineOf]
  by_cases hlen : (cString chunk).length = 65535
  · rw [if_pos hlen, if_pos hlen]
    rfl
  rw [if_neg hlen, if_neg hlen]
  cases htok : strtok blanks (stripLine (cString chunk)) with
  | none => rfl
  | some r =>
    obtain ⟨tok, saveptr⟩ := r
    simp only [lineOfWord]
    split_ifs
    · rw [configFileParsePlugin]
      cases namesAndPath saveptr <;> rfl
    · rw [configFileParseDefault]
      cases twoNames saveptr <;> rfl
    · rw [configFileParseOption]
      cases h : strtok blanks saveptr with
      | none => rfl
      | some r =>
        cases h' : strtok blanks r.2 with
        | none => simp only [h', Line.ofOption]; rfl
        | some _ => simp only [h', Line.ofOption]; rfl
    · rw [configFileParseName]
      cases oneName saveptr <;> rfl
    · rw [configFileParseName]
      cases oneName saveptr <;> rfl
    · rw [configFileRemoveDefault]
      cases oneName saveptr <;> rfl
    · rw [configFileRemovePlugin]
      cases twoNames saveptr <;> rfl
    · rfl

theorem getDefault_eq (config : ConfigFile) (type : Text) :
    configFileGetDefaultPlugin config type = (seek DefaultEntry.type type config.defaultPlugins).map (·.name) := rfl

theorem getLib_eq (config : ConfigFile) (type name : Text) :
    configFileGetLib config type name = (seek PluginEntry.key (type, name) config.plugins).map (·.library) := by
  have hkey : ∀ e : PluginEntry, decide (e.type = type ∧ e.name = name) = decide (e.key = (type, name)) := by
    intro e
    apply decide_eq_decide.mpr
    rw [PluginEntry.key, Prod.mk.injEq]
  rw [configFileGetLib, seek, funext hkey]

theorem foldOf_concat (on : Directive → Option (Option Text)) (ds : List Directive) (d : Directive) :
    foldOf on (ds ++ [d]) = (on d).getD (foldOf on ds) := by
  rw [foldOf, List.foldl_append]
  rfl

theorem defaultOf_concat (ds : List Directive) (d : Directive) (type : Text) :
    defaultOf (ds ++ [d]) type = (d.onDefault type).getD (defaultOf ds type) := foldOf_concat _ ds d

theorem libraryOf_concat (ds : List Directive) (d : Directive) (type name : Text) :
    libraryOf (ds ++ [d]) type name = (d.onLibrary type name).getD (libraryOf ds type name) := foldOf_concat _ ds d

/-- The last directive that is about the value counts. -/
theorem foldOf_eq (on : Directive → Option (Option Text)) (ds : List Directive) :
    foldOf on ds = (ds.reverse.findSome? on).join := by
  induction ds using List.reverseRecOn with
  | nil => rfl
  | append_singleton ds d ih =>
    rw [foldOf_concat, List.reverse_concat, List.findSome?_cons, ih]
    cases on d <;> rfl

theorem foldOf_eq_some {on : Directive → Option (Option Text)} : foldOf on ds = some name ↔
    ∃ before d after, ds = before ++ d :: after ∧ on d = some (some name) ∧ ∀ x ∈ after, on x = none := by
  rw [foldOf_eq, Option.join_eq_some_iff, List.findSome?_eq_some_iff]
  constructor
  · rintro ⟨after, d, before, hds, hd, hafter⟩
    refine ⟨before.reverse, d, after.reverse, ?_, hd, fun x hx => hafter x (List.mem_reverse.mp hx)⟩
    rw [← List.reverse_reverse ds, hds]
    simp
  · rintro ⟨before, d, after, rfl, hd, hafter⟩
    exact ⟨after.reverse, d, before.reverse, by simp, hd, fun x hx => hafter x (List.mem_reverse.mp hx)⟩

/-- The default is the last one, unless it is taken back after it. -/
theorem defaultOf_eq_some : defaultOf ds type = some name ↔
    ∃ before after, ds = before ++ .default type name :: after ∧
      ∀ d ∈ after, (∀ n, d ≠ .default type n) ∧ d ≠ .noDefault type := by
  have hset : ∀ d, Directive.onDefault type d = some (some name) ↔ d = .default type name := by
    intro d
    cases d <;> simp [Directive.onDefault, eq_comm]
  have hkeep : ∀ d, Directive.onDefault type d = none ↔ (∀ n, d ≠ .default type n) ∧ d ≠ .noDefault type := by
    intro d
    cases d <;> simp [Directive.onDefault, eq_comm]
  rw [defaultOf, foldOf_eq_some]
  simp only [hset, hkeep]
  constructor
  · rintro ⟨before, _, after, hds, rfl, hafter⟩
    exact ⟨before, after, hds, hafter⟩
  · rintro ⟨before, after, hds, hafter⟩
    exact ⟨before, _, after, hds, rfl, hafter⟩

theorem libraryOf_eq_some {library : Text} : libraryOf ds type name = some library ↔
    ∃ before after, ds = before ++ .plugin type name library :: after ∧
      ∀ d ∈ after, (∀ l, d ≠ .plugin type name l) ∧ d ≠ .noPlugin type name := by
  have hset : ∀ d, Directive.onLibrary type name d = some (some library) ↔ d = .plugin type name library := by
    intro d
    cases d <;> simp [Directive.onLibrary, eq_comm, and_assoc]
  have hkeep : ∀ d, Directive.onLibrary type name d = none ↔
      (∀ l, d ≠ .plugin type name l) ∧ d ≠ .noPlugin type name := by
    intro d
    cases d <;> simp [Directive.onLibrary, eq_comm]
  rw [libraryOf, foldOf_eq_some]
  simp only [hset, hkeep]
  constructor
  · rintro ⟨before, _, after, hds, rfl, hafter⟩
    exact ⟨before, after, hds, hafter⟩
  · rintro ⟨before, after, hds, hafter⟩
    exact ⟨before, _, after, hds, rfl, hafter⟩

theorem represents_nil : Represents [] ⟨[], []⟩ where
  defaults := fun _ => rfl
  libraries := fun _ _ => rfl
  defaultsOnce := List.nodup_nil
  pluginsOnce := List.nodup_nil

theorem Represents.any_default (h : Represents ds config) (type : Text) :
    config.defaultPlugins.any (·.type = type) = true ↔ defaultOf ds type ≠ none := by
  have hkey : config.defaultPlugins.any (DefaultEntry.type · = type) = true ↔
      type ∈ config.defaultPlugins.map DefaultEntry.type := any_key
  rw [hkey, ← h.defaults, getDefault_eq, Ne, Option.map_eq_none_iff, seek_eq_none, not_not]

/-- A step of the fold -/
theorem Represents.apply (h : Represents ds config) (hd : Allowed ds d) :
    ∃ config', apply config d = .ok config' ∧ Represents (ds ++ [d]) config' := by
  cases d with
  | default type name =>
    refine ⟨_, rfl, ?_, ?_, h.defaultsOnce.put _, h.pluginsOnce⟩
    · intro t
      rw [defaultOf_concat, ← h.defaults, getDefault_eq, getDefault_eq, seek_put, Directive.onDefault]
      by_cases ht : t = type
      · simp [ht]
      · simp [ht]
    · intro t n
      rw [libraryOf_concat]
      exact h.libraries t n
  | noDefault type =>
    refine ⟨_, if_pos ((h.any_default type).mpr hd), ?_, ?_, h.defaultsOnce.remove _, h.pluginsOnce⟩
    · intro t
      rw [defaultOf_concat, ← h.defaults, getDefault_eq, getDefault_eq, seek_remove, Directive.onDefault]
      by_cases ht : t = type
      · simp [ht]
      · simp [ht]
    · intro t n
      rw [libraryOf_concat]
      exact h.libraries t n
  | plugin type name library =>
    refine ⟨_, rfl, ?_, ?_, h.defaultsOnce, h.pluginsOnce.put _⟩
    · intro t
      rw [defaultOf_concat]
      exact h.defaults t
    · intro t n
      rw [libraryOf_concat, ← h.libraries, getLib_eq, getLib_eq, seek_put, Directive.onLibrary, PluginEntry.key]
      by_cases ht : t = type ∧ n = name
      · simp [ht]
      · simp [ht]
  | noPlugin type name =>
    refine ⟨_, rfl, ?_, ?_, h.defaultsOnce, h.pluginsOnce.remove _⟩
    · intro t
      rw [defaultOf_concat]
      exact h.defaults t
    · intro t n
      rw [libraryOf_concat, ← h.libraries, getLib_eq, getLib_eq, seek_remove, Directive.onLibrary]
      by_cases ht : t = type ∧ n = name
      · simp [ht]
      · simp [ht]

theorem Represents.refuses (h : Represents ds config) (hd : ¬ Allowed ds d) :
    ConfigSpec.apply config d = .error .configInvalid := by
  cases d with
  | noDefault type => exact if_neg fun hany => hd ((h.any_default type).mp hany)
  | default _ _ => exact absurd trivial hd
  | plugin _ _ _ => exact absurd trivial hd
  | noPlugin _ _ => exact absurd trivial hd

/-- How a call of the parse goes after the directives `before` -/
def ReadsFile (fopen : Files) (before : List Directive) (path : Text) (ignoreError : Bool) (ds : List Directive)
    (ok : Bool) : Prop :=
  match fopen path with
  | .error _ => ds = [] ∧ ok = ignoreError
  | .ok text => Reads fopen before (fgetsAll [] text) ds ok

/-- What a parse leaves: an error or none, and a configuration that the directives add up to. -/
def Leaves (ds : List Directive) (ok : Bool) (out : Outcome) : Prop :=
  (out.error = none ↔ ok = true) ∧ Represents ds out.config

variable {out : Outcome} {ok ignoreError : Bool} {path text line : Text} {errno : Nat} {k : Call}
  {inner : List Directive} {innerOk : Bool}

theorem leaves_error (h : Represents ds config) (e : Fault) : Leaves ds false ⟨some e, config⟩ :=
  ⟨by simp, h⟩

theorem ends_missing (hopen : fopen path = .error errno) :
    Result (configFileParse fopen) ⟨path, ignoreError, config⟩
      ⟨if ignoreError then none else some (.cannotOpen errno), config⟩ := by
  rw [result_iff, configFileParse, hopen]
  exact ends_ret.mpr rfl

theorem ends_opened (hopen : fopen path = .ok text) :
    Result (configFileParse fopen) ⟨path, ignoreError, config⟩ out ↔
      Ends (configFileParse fopen) (parseLines (fgetsAll [] text) config) out := by
  rw [result_iff, configFileParse, hopen]

/-- The parse does what the reading says. -/
theorem Reads.ends (h : Reads fopen before lines ds ok) (hrep : Represents before config) :
    ∃ out, Ends (configFileParse fopen) (parseLines lines config) out ∧ Leaves (before ++ ds) ok out := by
  induction h generalizing config with
  | done => exact ⟨_, ends_ret.mpr rfl, by simp, by simpa using hrep⟩
  | nothing hline _ ih =>
    rw [parseLines_cons, hline]
    exact ih hrep
  | wrong hline =>
    rw [parseLines_cons, hline, List.append_nil]
    exact ⟨_, ends_ret.mpr rfl, leaves_error hrep _⟩
  | does hline hd _ ih =>
    obtain ⟨config', happly, hrep'⟩ := hrep.apply hd
    obtain ⟨out, hout, hleaves⟩ := ih hrep'
    rw [parseLines_cons, hline, follow, happly]
    refine ⟨out, hout, ?_⟩
    simpa using hleaves
  | refused hline hd =>
    rw [parseLines_cons, hline, follow, hrep.refuses hd, List.append_nil]
    exact ⟨_, ends_ret.mpr rfl, leaves_error hrep _⟩
  | missing hline hopen =>
    rw [parseLines_cons, hline, List.append_nil]
    exact ⟨_, ends_act.mpr ⟨_, ends_missing hopen, ends_ret.mpr rfl⟩, leaves_error hrep _⟩
  | passed hline hopen _ ih =>
    obtain ⟨out, hout, hleaves⟩ := ih hrep
    rw [parseLines_cons, hline]
    exact ⟨out, ends_act.mpr ⟨_, ends_missing hopen, hout⟩, hleaves⟩
  | failed hline hopen _ ih =>
    obtain ⟨out, hout, hleaves⟩ := ih hrep
    rw [parseLines_cons, hline]
    cases herr : out.error with
    | none => exact absurd (hleaves.1.mp herr) (by simp)
    | some e =>
      refine ⟨out, ends_act.mpr ⟨out, (ends_opened hopen).mpr hout, ?_⟩, hleaves⟩
      rw [herr]
      exact ends_ret.mpr (by rw [← herr])
  | @included _ _ _ _ ignoreError _ _ _ _ _ hline hopen _ hok _ ihfile ihrest =>
    obtain ⟨inner, hinner, hleft⟩ := ihfile hrep
    obtain ⟨out, hout, hleaves⟩ := ihrest hleft.2
    rw [parseLines_cons, hline]
    rw [List.append_assoc] at hleaves
    refine ⟨out, ?_, hleaves⟩
    cases ignoreError with
    | true => exact ends_act.mpr ⟨inner, (ends_opened hopen).mpr hinner, hout⟩
    | false =>
      have herr : inner.error = none := hleft.1.mpr (hok.resolve_right (by simp))
      refine ends_act.mpr ⟨inner, (ends_opened hopen).mpr hinner, ?_⟩
      rw [herr]
      exact hout

theorem ReadsFile.included (hfile : ReadsFile fopen before path ignoreError inner innerOk)
    (hline : lineOf line = .includes path ignoreError) (hok : innerOk = true ∨ ignoreError = true)
    (hrest : Reads fopen (before ++ inner) rest ds ok) : Reads fopen before (line :: rest) (inner ++ ds) ok := by
  rw [ReadsFile] at hfile
  cases hopen : fopen path with
  | error errno =>
    rw [hopen] at hfile
    obtain ⟨rfl, hign⟩ := hfile
    rw [List.append_nil] at hrest
    obtain rfl : ignoreError = true := hok.elim hign.symm.trans id
    exact .passed hline hopen hrest
  | ok text =>
    rw [hopen] at hfile
    exact .included hline hopen hfile hok hrest

theorem ReadsFile.failed (hfile : ReadsFile fopen before path false ds false)
    (hline : lineOf line = .includes path false) : Reads fopen before (line :: rest) ds false := by
  rw [ReadsFile] at hfile
  cases hopen : fopen path with
  | error errno =>
    rw [hopen] at hfile
    obtain ⟨rfl, _⟩ := hfile
    exact .missing hline hopen
  | ok text =>
    rw [hopen] at hfile
    exact .failed hline hopen hfile

theorem ReadsFile.result (hfile : ReadsFile fopen before path ignoreError ds ok) (hrep : Represents before config) :
    ∃ out, Result (configFileParse fopen) ⟨path, ignoreError, config⟩ out ∧ Leaves (before ++ ds) ok out := by
  rw [ReadsFile] at hfile
  cases hopen : fopen path with
  | error errno =>
    rw [hopen] at hfile
    obtain ⟨rfl, rfl⟩ := hfile
    refine ⟨_, ends_missing hopen, ?_, by simpa using hrep⟩
    cases ok <;> simp
  | ok text =>
    rw [hopen] at hfile
    obtain ⟨out, hout, hleaves⟩ := hfile.ends hrep
    exact ⟨out, (ends_opened hopen).mpr hout, hleaves⟩

/-- A call does as a reading says. -/
def Told (fopen : Files) (k : Call) (out : Outcome) : Prop :=
  ∀ before, Represents before k.config →
    ∃ ds ok, ReadsFile fopen before k.path k.ignoreError ds ok ∧ Leaves (before ++ ds) ok out

theorem told_lines {call : Call → Option Outcome} (hcall : ∀ k r, call k = some r → Told fopen k r)
    (h : exec call (parseLines lines config) = some out) (hrep : Represents before config) :
    ∃ ds ok, Reads fopen before lines ds ok ∧ Leaves (before ++ ds) ok out := by
  induction lines generalizing before config with
  | nil =>
    obtain rfl := exec_ret.mp h
    exact ⟨[], true, .done, by simp, by simpa using hrep⟩
  | cons line rest ih =>
    rw [parseLines_cons] at h
    cases hline : lineOf line with
    | nothing =>
      rw [hline] at h
      obtain ⟨ds, ok, hreads, hleaves⟩ := ih h hrep
      exact ⟨ds, ok, .nothing hline hreads, hleaves⟩
    | wrong =>
      rw [hline] at h
      obtain rfl := exec_ret.mp h
      exact ⟨[], false, .wrong hline, by simpa using leaves_error hrep _⟩
    | does d =>
      rw [hline, follow] at h
      by_cases hd : Allowed before d
      · obtain ⟨config', happly, hrep'⟩ := hrep.apply hd
        rw [happly] at h
        obtain ⟨ds, ok, hreads, hleaves⟩ := ih h hrep'
        exact ⟨d :: ds, ok, .does hline hd hreads, by simpa using hleaves⟩
      · rw [hrep.refuses hd] at h
        obtain rfl := exec_ret.mp h
        exact ⟨[], false, .refused hline hd, by simpa using leaves_error hrep _⟩
    | includes path ignoreError =>
      rw [hline] at h
      cases ignoreError with
      | true =>
        obtain ⟨r, hr, hf⟩ := exec_act.mp h
        obtain ⟨inner, innerOk, hfile, hleft⟩ := hcall _ _ hr before hrep
        obtain ⟨ds, ok, hreads, hleaves⟩ := ih hf hleft.2
        refine ⟨inner ++ ds, ok, hfile.included hline (.inr rfl) hreads, ?_⟩
        rw [← List.append_assoc]
        exact hleaves
      | false =>
        obtain ⟨r, hr, hf⟩ := exec_act.mp h
        obtain ⟨inner, innerOk, hfile, hleft⟩ := hcall _ _ hr before hrep
        cases herr : r.error with
        | none =>
          rw [herr] at hf
          obtain rfl := hleft.1.mp herr
          obtain ⟨ds, ok, hreads, hleaves⟩ := ih hf hleft.2
          refine ⟨inner ++ ds, ok, hfile.included hline (.inl rfl) hreads, ?_⟩
          rw [← List.append_assoc]
          exact hleaves
        | some e =>
          rw [herr] at hf
          obtain rfl := exec_ret.mp hf
          obtain rfl : innerOk = false := by
            rw [← Bool.not_eq_true, ← hleft.1, herr]
            simp
          exact ⟨inner, false, hfile.failed hline, leaves_error hleft.2 e⟩

theorem told (h : Result (configFileParse fopen) k out) : Told fopen k out := by
  apply h.induct
  intro call hcall k out hout before hrep
  rw [configFileParse] at hout
  cases hopen : fopen k.path with
  | error errno =>
    rw [hopen] at hout
    obtain rfl := exec_ret.mp hout
    refine ⟨[], k.ignoreError, ?_, ?_, by simpa using hrep⟩
    · rw [ReadsFile, hopen]
      exact ⟨rfl, rfl⟩
    · cases k.ignoreError <;> simp
  | ok text =>
    rw [hopen] at hout
    obtain ⟨ds, ok, hreads, hleaves⟩ := told_lines hcall hout hrep
    refine ⟨ds, ok, ?_, hleaves⟩
    rw [ReadsFile, hopen]
    exact hreads

end Ltfs.ConfigSpec
