import Ltfs.ConfigReach

namespace Ltfs.ConfigCycles

open ConfigFile ConfigSpec Lib.Keyed Lib.Program Lib.Recursive Relation

variable (fopen : Files)

/-- A reading of lines after the directives `before` comes to a line that includes a path, after the directives
`now`. -/
inductive Enters : List Directive → List Text → Text → List Directive → Prop
  | here {before line rest path ignoreError} (hline : lineOf line = .includes path ignoreError) :
    Enters before (line :: rest) path before
  | nothing {before line rest path now} (hline : lineOf line = .nothing) (hrest : Enters before rest path now) :
    Enters before (line :: rest) path now
  | does {before line rest d path now} (hline : lineOf line = .does d) (hd : Allowed before d)
    (hrest : Enters (before ++ [d]) rest path now) : Enters before (line :: rest) path now
  | included {before line rest file ignoreError inner innerOk path now}
    (hline : lineOf line = .includes file ignoreError) (hfile : ReadsFile fopen before file ignoreError inner innerOk)
    (hok : innerOk = true ∨ ignoreError = true) (hrest : Enters (before ++ inner) rest path now) :
    Enters before (line :: rest) path now

/-- A file opened after some directives leads to the next one that it includes. -/
def Opens (a b : Text × List Directive) : Prop :=
  ∃ text, fopen a.1 = .ok text ∧ Enters fopen a.2 (fgetsAll [] text) b.1 b.2

/-- The same defaults and the same libraries -/
def SameSettings (ds ds' : List Directive) : Prop :=
  defaultOf ds = defaultOf ds' ∧ libraryOf ds = libraryOf ds'

/-- While a file is read, it is opened again with the settings that it was opened with. -/
def Circular (path : Text) : Prop :=
  ∃ file ds ds', ReflTransGen (Opens fopen) (path, []) (file, ds) ∧ TransGen (Opens fopen) (file, ds) (file, ds') ∧
    SameSettings ds ds'

/-- The parse of a file with nothing configured comes back, with an error or with what all the directives add up to. -/
def Settled (path : Text) (ignoreError : Bool) : Prop :=
  ∃ out, Result (configFileParse fopen) ⟨path, ignoreError, ⟨[], []⟩⟩ out ∧
    (out.error = none → ∃ ds, ReadsFile fopen [] path ignoreError ds true ∧ Represents ds out.config)

variable {fopen} {before now ds ds' : List Directive} {lines : List Text} {path : Text} {ignoreError : Bool}
  {config : ConfigFile} {k k' : Call}

theorem settled_iff_returns :
    Settled fopen path ignoreError ↔ Returns (configFileParse fopen) ⟨path, ignoreError, ⟨[], []⟩⟩ := by
  constructor
  · rintro ⟨out, hout, _⟩
    exact ⟨out, hout⟩
  · rintro ⟨out, hout⟩
    refine ⟨out, hout, fun herr => ?_⟩
    obtain ⟨ds, ok, hreads, hleaves⟩ := told hout [] represents_nil
    obtain rfl := hleaves.1.mp herr
    exact ⟨ds, hreads, hleaves.2⟩

theorem Represents.sameSettings (h : Represents ds config) (h' : Represents ds' config) : SameSettings ds ds' := by
  constructor
  · funext type
    rw [← h.defaults, ← h'.defaults]
  · funext type name
    rw [← h.libraries, ← h'.libraries]

theorem enters_asks (h : Enters fopen before lines path now) (hrep : Represents before config) :
    ∃ k, Asks (configFileParse fopen) (parseLines lines config) k ∧ k.path = path ∧ Represents now k.config := by
  induction h generalizing config with
  | @here _ _ _ path ignoreError hline =>
    rw [parseLines_cons, hline]
    refine ⟨⟨path, ignoreError, config⟩, ?_, rfl, hrep⟩
    cases ignoreError <;> exact .here _ _
  | nothing hline _ ih =>
    rw [parseLines_cons, hline]
    exact ih hrep
  | does hline hd _ ih =>
    obtain ⟨config', happly, hrep'⟩ := hrep.apply hd
    rw [parseLines_cons, hline, follow, happly]
    exact ih hrep'
  | @included _ _ _ file ignoreError _ _ _ _ hline hfile hok _ ih =>
    obtain ⟨out, hout, hleft⟩ := hfile.result hrep
    obtain ⟨k, hasks, hpath, hrep'⟩ := ih hleft.2
    rw [parseLines_cons, hline]
    refine ⟨k, ?_, hpath, hrep'⟩
    cases ignoreError with
    | true => exact .later hout hasks
    | false =>
      refine .later hout ?_
      rw [hleft.1.mpr (hok.resolve_right (by simp))]
      exact hasks

theorem asks_enters (h : Asks (configFileParse fopen) (parseLines lines config) k) (hrep : Represents before config) :
    ∃ now, Enters fopen before lines k.path now ∧ Represents now k.config := by
  induction lines generalizing before config with
  | nil => cases h
  | cons line rest ih =>
    rw [parseLines_cons] at h
    cases hline : lineOf line with
    | nothing =>
      rw [hline] at h
      obtain ⟨now, henters, hnow⟩ := ih h hrep
      exact ⟨now, .nothing hline henters, hnow⟩
    | wrong =>
      rw [hline] at h
      cases h
    | does d =>
      rw [hline, follow] at h
      by_cases hd : Allowed before d
      · obtain ⟨config', happly, hrep'⟩ := hrep.apply hd
        rw [happly] at h
        obtain ⟨now, henters, hnow⟩ := ih h hrep'
        exact ⟨now, .does hline hd henters, hnow⟩
      · rw [hrep.refuses hd] at h
        cases h
    | includes file ignoreError =>
      rw [hline] at h
      cases ignoreError with
      | true =>
        rcases asks_act.mp h with rfl | ⟨r, hr, h⟩
        · exact ⟨before, .here hline, hrep⟩
        · obtain ⟨inner, innerOk, hfile, hleft⟩ := told hr before hrep
          obtain ⟨now, henters, hnow⟩ := ih h hleft.2
          exact ⟨now, .included hline hfile (.inr rfl) henters, hnow⟩
      | false =>
        rcases asks_act.mp h with rfl | ⟨r, hr, h⟩
        · exact ⟨before, .here hline, hrep⟩
        · obtain ⟨inner, innerOk, hfile, hleft⟩ := told hr before hrep
          cases herr : r.error with
          | none =>
            rw [herr] at h
            obtain ⟨now, henters, hnow⟩ := ih h hleft.2
            exact ⟨now, .included hline hfile (.inl (hleft.1.mp herr)) henters, hnow⟩
          | some e =>
            rw [herr] at h
            cases h

theorem opens_calls (h : Opens fopen (k.path, before) (path, now)) (hrep : Represents before k.config) :
    ∃ k', Calls (configFileParse fopen) k k' ∧ k'.path = path ∧ Represents now k'.config := by
  obtain ⟨text, hopen, henters⟩ := h
  obtain ⟨k', hasks, hpath, hnow⟩ := enters_asks henters hrep
  refine ⟨k', ?_, hpath, hnow⟩
  rw [Calls, configFileParse, hopen]
  exact hasks

theorem calls_opens (h : Calls (configFileParse fopen) k k') (hrep : Represents before k.config) :
    ∃ now, Opens fopen (k.path, before) (k'.path, now) ∧ Represents now k'.config := by
  rw [Calls, configFileParse] at h
  cases hopen : fopen k.path with
  | error errno =>
    rw [hopen] at h
    cases h
  | ok text =>
    rw [hopen] at h
    obtain ⟨now, henters, hnow⟩ := asks_enters h hrep
    exact ⟨now, ⟨text, hopen, henters⟩, hnow⟩

theorem reaches_opens (h : ReflTransGen (Calls (configFileParse fopen)) k k') (hrep : Represents before k.config) :
    ∃ now, ReflTransGen (Opens fopen) (k.path, before) (k'.path, now) ∧ Represents now k'.config := by
  induction h with
  | refl => exact ⟨before, .refl, hrep⟩
  | tail _ hcall ih =>
    obtain ⟨now, hopens, hnow⟩ := ih
    obtain ⟨next, hnext, hrep'⟩ := calls_opens hcall hnow
    exact ⟨next, hopens.tail hnext, hrep'⟩

theorem reaches_opens_trans (h : TransGen (Calls (configFileParse fopen)) k k') (hrep : Represents before k.config) :
    ∃ now, TransGen (Opens fopen) (k.path, before) (k'.path, now) ∧ Represents now k'.config := by
  obtain ⟨c, hfirst, hrest⟩ := TransGen.head'_iff.mp h
  obtain ⟨now, hopens, hnow⟩ := calls_opens hfirst hrep
  obtain ⟨next, hnext, hrep'⟩ := reaches_opens hrest hnow
  exact ⟨next, TransGen.head' hopens hnext, hrep'⟩

/-- A file that is opened has been called. -/
theorem opens_reaches {a b : Text × List Directive} (h : ReflTransGen (Opens fopen) a b) (hpath : k.path = a.1)
    (hrep : Represents a.2 k.config) :
    ∃ k', ReflTransGen (Calls (configFileParse fopen)) k k' ∧ k'.path = b.1 ∧ Represents b.2 k'.config := by
  induction h with
  | refl => exact ⟨k, .refl, hpath, hrep⟩
  | @tail b c _ hopens ih =>
    obtain ⟨k', hcalls, hpath', hrep'⟩ := ih
    have h' : Opens fopen (k'.path, b.2) (c.1, c.2) := by
      rw [hpath']
      exact hopens
    obtain ⟨next, hnext, hpath'', hrep''⟩ := opens_calls h' hrep'
    exact ⟨next, hcalls.tail hnext, hpath'', hrep''⟩

theorem opens_reaches_trans {a b : Text × List Directive} (h : TransGen (Opens fopen) a b) (hpath : k.path = a.1)
    (hrep : Represents a.2 k.config) :
    ∃ k', TransGen (Calls (configFileParse fopen)) k k' ∧ k'.path = b.1 ∧ Represents b.2 k'.config := by
  obtain ⟨c, hfirst, hrest⟩ := TransGen.head'_iff.mp h
  have h' : Opens fopen (k.path, a.2) (c.1, c.2) := by
    rw [hpath]
    exact hfirst
  obtain ⟨next, hnext, hpath', hrep'⟩ := opens_calls h' hrep
  obtain ⟨k', hcalls, hpath'', hrep''⟩ := opens_reaches hrest hpath' hrep'
  exact ⟨k', TransGen.head' hnext hcalls, hpath'', hrep''⟩

theorem Represents.of_same (h : Represents ds config) (hsame : SameSettings ds' ds) : Represents ds' config where
  defaults := fun type => (h.defaults type).trans (congrFun hsame.1 type).symm
  libraries := fun type name => (h.libraries type name).trans (congrFun (congrFun hsame.2 type) name).symm
  defaultsOnce := h.defaultsOnce
  pluginsOnce := h.pluginsOnce

/-- What is opened again with the same settings goes on as before, and so without end. -/
theorem not_returns_of_same (h : TransGen (Opens fopen) (path, ds) (path, ds')) (hsame : SameSettings ds ds')
    (hpath : k.path = path) (hrep : Represents ds k.config) : ¬ Returns (configFileParse fopen) k := by
  rintro ⟨out, n, hn⟩
  induction n using Nat.strong_induction_on generalizing k out with
  | _ n ih =>
    obtain ⟨k', hcalls, hpath', hrep'⟩ := opens_reaches_trans h hpath hrep
    obtain ⟨m, out', hm, hout'⟩ := run_reaches hn hcalls
    exact ih m hm hpath' (Represents.of_same hrep' hsame) out' hout'

theorem not_returns_of_circular (h : Circular fopen path) :
    ¬ Returns (configFileParse fopen) ⟨path, ignoreError, ⟨[], []⟩⟩ := by
  obtain ⟨file, ds, ds', hfirst, hagain, hsame⟩ := h
  intro hreturns
  obtain ⟨k, hcalls, hpath, hrep⟩ := opens_reaches (k := ⟨path, ignoreError, ⟨[], []⟩⟩) hfirst rfl represents_nil
  exact not_returns_of_same hagain hsame hpath hrep (hreturns.of_calls hcalls)

theorem circular_of_cycle (h : ReflTransGen (Calls (configFileParse fopen)) ⟨path, ignoreError, ⟨[], []⟩⟩ k)
    (hcycle : TransGen (Calls (configFileParse fopen)) k k) : Circular fopen path := by
  obtain ⟨ds, hfirst, hrep⟩ := reaches_opens h represents_nil
  obtain ⟨ds', hagain, hrep'⟩ := reaches_opens_trans hcycle hrep
  exact ⟨k.path, ds, ds', hfirst, hagain, Represents.sameSettings hrep hrep'⟩

/-- Somewhere in a file there is a line that includes another one. -/
def Mentions (fopen : Files) (file file' : Text) : Prop :=
  ∃ text line ignoreError, fopen file = .ok text ∧ line ∈ fgetsAll [] text ∧ lineOf line = .includes file' ignoreError

theorem Enters.mem (h : Enters fopen before lines path now) :
    ∃ line ∈ lines, ∃ ignoreError, lineOf line = .includes path ignoreError := by
  induction h with
  | @here _ line _ _ ignoreError hline => exact ⟨line, List.mem_cons_self, ignoreError, hline⟩
  | nothing _ _ ih => exact List.exists_mem_cons_of_exists ih
  | does _ _ _ ih => exact List.exists_mem_cons_of_exists ih
  | included _ _ _ _ ih => exact List.exists_mem_cons_of_exists ih

theorem Opens.mentions {a b : Text × List Directive} (h : Opens fopen a b) : Mentions fopen a.1 b.1 := by
  obtain ⟨text, hopen, henters⟩ := h
  obtain ⟨line, hmem, ignoreError, hline⟩ := henters.mem
  exact ⟨text, line, ignoreError, hopen, hmem, hline⟩

/-- Files of which none includes itself, directly or not, are no danger. -/
theorem not_circular_of_acyclic (h : ∀ file, ¬ TransGen (Mentions fopen) file file) (path : Text) :
    ¬ Circular fopen path := by
  rintro ⟨file, ds, ds', _, hagain, _⟩
  exact h file (hagain.lift Prod.fst fun _ _ => Opens.mentions)

/-- The parse of finitely many files does as it should just if no file is opened again, while it is read, with the
settings that it was opened with. -/
theorem settled_iff (hfin : (Set.range fopen).Finite) (path : Text) (ignoreError : Bool) :
    Settled fopen path ignoreError ↔ ¬ Circular fopen path := by
  rw [settled_iff_returns]
  constructor
  · intro hreturns hcircular
    exact not_returns_of_circular hcircular hreturns
  · intro hcircular
    rw [returns_iff (ConfigReach.finite_reaches hfin path ignoreError)]
    intro k hk hcycle
    exact hcircular (circular_of_cycle hk hcycle)

/-- A single file -/
def oneFile (text : Text) : Files := fun path => if path = ['a'] then .ok text else .error 2

theorem finite_oneFile (text : Text) : (Set.range (oneFile text)).Finite := by
  refine (Set.toFinite {.ok text, .error 2}).subset ?_
  rintro _ ⟨path, rfl⟩
  by_cases h : path = ['a'] <;> simp [oneFile, h]

/-- A line that includes the file that it is in -/
def selfInclude : Text := includeWord ++ [' ', 'a', '\n']

theorem lineOf_selfInclude : lineOf selfInclude = .includes ['a'] false := by decide

theorem self_opens : Opens (oneFile selfInclude) (['a'], []) (['a'], []) := by
  have hlines : fgetsAll [] selfInclude = [selfInclude] := by decide
  refine ⟨selfInclude, rfl, ?_⟩
  rw [hlines]
  exact .here lineOf_selfInclude

theorem settled_iff_self : (Set.range (oneFile selfInclude)).Finite ∧
    (Settled (oneFile selfInclude) ['a'] false ↔ ¬ Circular (oneFile selfInclude) ['a']) :=
  ⟨finite_oneFile selfInclude, settled_iff (finite_oneFile selfInclude) ['a'] false⟩

/-- It is a single finite file, and its parse does not come back. -/
theorem self_unsettled :
    (Set.range (oneFile selfInclude)).Finite ∧ ¬ Settled (oneFile selfInclude) ['a'] false := by
  refine ⟨finite_oneFile selfInclude, ?_⟩
  rw [settled_iff_returns]
  apply not_returns_of_circular
  exact ⟨['a'], [], [], .refl, .single self_opens, rfl, rfl⟩

end Ltfs.ConfigCycles
