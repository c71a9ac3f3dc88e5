import Ltfs.ConfigSpec
import Mathlib.Data.Finite.Prod
import Mathlib.Data.Set.Finite.List

namespace Ltfs.ConfigReach

open ConfigFile ConfigSpec Lib.Keyed Lib.Program Lib.Recursive Relation

theorem strtok_sublist {delims s t s' : Text} (h : strtok delims s = some (t, s')) : t.Sublist s ∧ s'.Sublist s := by
  rw [strtok] at h
  have hdrop := List.dropWhile_sublist (l := s) (· ∈ delims)
  cases hs : s.dropWhile (· ∈ delims) with
  | nil =>
    rw [hs] at h
    cases h
  | cons c rest =>
    rw [hs] at h hdrop
    obtain ⟨rfl, rfl⟩ := Prod.mk.inj (Option.some.inj h)
    exact ⟨(List.takeWhile_sublist _).trans hdrop, ((List.tail_sublist _).trans (List.dropWhile_sublist _)).trans hdrop⟩

theorem oneName_sublist {s a : Text} (h : oneName s = some a) : a.Sublist s := by
  rw [oneName] at h
  cases hs : strtok blanks s with
  | none =>
    rw [hs] at h
    cases h
  | some r =>
    obtain ⟨ha, _⟩ := strtok_sublist hs
    simp only [hs] at h
    split_ifs at h
    obtain rfl := Option.some.inj h
    exact ha

theorem twoNames_sublist {s a b : Text} (h : twoNames s = some (a, b)) : a.Sublist s ∧ b.Sublist s := by
  rw [twoNames] at h
  cases hs : strtok blanks s with
  | none =>
    rw [hs] at h
    cases h
  | some r =>
    obtain ⟨ha, hrest⟩ := strtok_sublist hs
    simp only [hs] at h
    cases hr : strtok blanks r.2 with
    | none =>
      rw [hr] at h
      cases h
    | some q =>
      obtain ⟨hb, _⟩ := strtok_sublist hr
      simp only [hr] at h
      split_ifs at h
      obtain ⟨rfl, rfl⟩ := Prod.mk.inj (Option.some.inj h)
      exact ⟨ha, hb.trans hrest⟩

theorem namesAndPath_sublist {s a b c : Text} (h : namesAndPath s = some (a, b, c)) :
    a.Sublist s ∧ b.Sublist s ∧ c.Sublist s := by
  rw [namesAndPath] at h
  cases hs : strtok blanks s with
  | none =>
    rw [hs] at h
    cases h
  | some r =>
    obtain ⟨ha, hrest⟩ := strtok_sublist hs
    simp only [hs] at h
    cases hr : strtok blanks r.2 with
    | none =>
      rw [hr] at h
      cases h
    | some q =>
      obtain ⟨hb, hrest'⟩ := strtok_sublist hr
      simp only [hr] at h
      cases hq : strtok ['\r', '\n'] q.2 with
      | none =>
        rw [hq] at h
        cases h
      | some p =>
        obtain ⟨hc, _⟩ := strtok_sublist hq
        simp only [hq] at h
        obtain ⟨rfl, hbc⟩ := Prod.mk.inj (Option.some.inj h)
        obtain ⟨rfl, rfl⟩ := Prod.mk.inj hbc
        exact ⟨ha, hb.trans hrest, hc.trans (hrest'.trans hrest)⟩

/-- The words of a line are all in a set. -/
def LineIn (W : Set Text) : Line → Prop
  | .does (.default type name) => type ∈ W ∧ name ∈ W
  | .does (.noDefault type) => type ∈ W
  | .does (.plugin type name library) => type ∈ W ∧ name ∈ W ∧ library ∈ W
  | .does (.noPlugin type name) => type ∈ W ∧ name ∈ W
  | .includes path _ => path ∈ W
  | _ => True

/-- The names of a configuration are all in a set, and no entry is there twice. -/
structure Within (W : Set Text) (config : ConfigFile) : Prop where
  defaults : ∀ e ∈ config.defaultPlugins, e.type ∈ W ∧ e.name ∈ W
  plugins : ∀ e ∈ config.plugins, e.type ∈ W ∧ e.name ∈ W ∧ e.library ∈ W
  defaultsOnce : Distinct DefaultEntry.type config.defaultPlugins
  pluginsOnce : Distinct PluginEntry.key config.plugins

variable {W : Set Text} {chunk saveptr tok : Text} {lines : List Text} {config config' : ConfigFile} {d : Directive}
  {fopen : Files} {k k' : Call} {path : Text}

theorem lineIn_ofOption {α : Type} {f : α → Line} {r : Option α} (h : ∀ a, r = some a → LineIn W (f a)) :
    LineIn W (.ofOption f r) := by
  cases r with
  | none => trivial
  | some a => exact h a rfl

theorem lineOfWord_in (hW : ∀ w : Text, w.Sublist saveptr → w ∈ W) : LineIn W (lineOfWord tok saveptr) := by
  rw [lineOfWord]
  split_ifs
  · apply lineIn_ofOption
    intro a ha
    obtain ⟨h₁, h₂, h₃⟩ := namesAndPath_sublist ha
    exact ⟨hW _ h₁, hW _ h₂, hW _ h₃⟩
  · apply lineIn_ofOption
    intro a ha
    obtain ⟨h₁, h₂⟩ := twoNames_sublist ha
    exact ⟨hW _ h₁, hW _ h₂⟩
  · exact lineIn_ofOption fun a _ => lineIn_ofOption fun _ _ => trivial
  · exact lineIn_ofOption fun a ha => hW _ (oneName_sublist ha)
  · exact lineIn_ofOption fun a ha => hW _ (oneName_sublist ha)
  · exact lineIn_ofOption fun a ha => hW _ (oneName_sublist ha)
  · apply lineIn_ofOption
    intro a ha
    obtain ⟨h₁, h₂⟩ := twoNames_sublist ha
    exact ⟨hW _ h₁, hW _ h₂⟩
  · trivial

theorem stripLine_sublist (line : Text) : (stripLine line).Sublist line := by
  have h := List.dropWhile_sublist (l := (line.takeWhile (· ≠ '#')).reverse) (· ∈ blanks)
  have hrev := h.reverse
  rw [List.reverse_reverse] at hrev
  exact hrev.trans (List.takeWhile_sublist _)

theorem lineOf_in (hW : ∀ w : Text, w.Sublist chunk → w ∈ W) : LineIn W (lineOf chunk) := by
  rw [lineOf]
  split_ifs
  · trivial
  · cases htok : strtok blanks (stripLine (cString chunk)) with
    | none => trivial
    | some r =>
      have hline := (stripLine_sublist (cString chunk)).trans (List.takeWhile_sublist _)
      exact lineOfWord_in fun w hw => hW w ((hw.trans (strtok_sublist htok).2).trans hline)

theorem forall_put {ε κ : Type} [DecidableEq κ] {key : ε → κ} {P : ε → Prop} {e : ε} {l : List ε} (he : P e)
    (hl : ∀ x ∈ l, P x) : ∀ x ∈ put key e l, P x := by
  intro x hx
  rw [put] at hx
  split_ifs at hx
  · obtain ⟨y, hy, rfl⟩ := List.mem_map.mp hx
    split_ifs
    · exact he
    · exact hl y hy
  · rcases List.mem_append.mp hx with hx | hx
    · exact hl x hx
    · exact List.mem_singleton.mp hx ▸ he

theorem Within.apply (h : Within W config) (hd : LineIn W (.does d)) (happly : apply config d = .ok config') :
    Within W config' := by
  cases d with
  | default type name =>
    obtain rfl := Except.ok.inj happly
    exact ⟨forall_put hd h.defaults, h.plugins, h.defaultsOnce.put _, h.pluginsOnce⟩
  | noDefault type =>
    rw [ConfigSpec.apply] at happly
    split_ifs at happly
    obtain rfl := Except.ok.inj happly
    exact ⟨fun e he => h.defaults e (List.mem_of_mem_filter he), h.plugins, h.defaultsOnce.remove _, h.pluginsOnce⟩
  | plugin type name library =>
    obtain rfl := Except.ok.inj happly
    exact ⟨h.defaults, forall_put hd h.plugins, h.defaultsOnce, h.pluginsOnce.put _⟩
  | noPlugin type name =>
    obtain rfl := Except.ok.inj happly
    exact ⟨h.defaults, fun e he => h.plugins e (List.mem_of_mem_filter he), h.defaultsOnce, h.pluginsOnce.remove _⟩

/-- Calls keep to the words of the files. -/
abbrev keepsWords (W : Set Text) : Rules Call (fun _ => Outcome) Unit :=
  contract (fun k => k.path ∈ W ∧ Within W k.config) fun _ out => Within W out.config

theorem parseLines_safe (hW : ∀ chunk ∈ lines, ∀ w : Text, w.Sublist chunk → w ∈ W) (h : Within W config) :
    Safe (keepsWords W) (parseLines lines config) () fun out _ => Within W out.config := by
  induction lines generalizing config with
  | nil => exact h
  | cons chunk rest ih =>
    have hline := lineOf_in (hW chunk List.mem_cons_self)
    have hrest : ∀ c ∈ rest, ∀ w : Text, w.Sublist c → w ∈ W := fun c hc => hW c (List.mem_cons_of_mem _ hc)
    rw [parseLines_cons]
    cases hl : lineOf chunk with
    | nothing => exact ih hrest h
    | wrong => exact h
    | does d =>
      rw [hl] at hline
      rw [follow]
      cases happly : apply config d with
      | error e => exact h
      | ok config' => exact ih hrest (h.apply hline happly)
    | includes file ignoreError =>
      rw [hl] at hline
      cases ignoreError with
      | true => exact ⟨⟨hline, h⟩, fun out hout => ih hrest hout⟩
      | false =>
        refine ⟨⟨hline, h⟩, fun out hout => ?_⟩
        obtain ⟨error, config'⟩ := out
        cases error with
        | none => exact ih hrest hout
        | some e => exact hout

/-- The words that a parse can come across: the path, and what can be cut out of the files. -/
def words (fopen : Files) (path : Text) : Set Text :=
  {w | w = path ∨ ∃ file text, fopen file = .ok text ∧ w.Sublist text}

theorem body_safe (h : k.path ∈ words fopen path ∧ Within (words fopen path) k.config) :
    Safe (keepsWords (words fopen path)) (configFileParse fopen k) () fun out _ =>
      Within (words fopen path) out.config := by
  rw [configFileParse]
  cases hopen : fopen k.path with
  | error errno => exact h.2
  | ok text =>
    refine parseLines_safe ?_ h.2
    intro chunk hchunk w hw
    have htext := List.sublist_flatten_of_mem hchunk
    rw [flatten_fgetsAll, List.nil_append] at htext
    exact .inr ⟨k.path, text, hopen, hw.trans htext⟩

theorem finite_words (hfin : (Set.range fopen).Finite) : (words fopen path).Finite := by
  have hcut : ∀ c : Except Nat Text, {w : Text | ∃ text, c = .ok text ∧ w.Sublist text}.Finite := by
    intro c
    cases c with
    | error e => simp
    | ok text =>
      refine (List.finite_toSet text.sublists).subset ?_
      rintro w ⟨t, ht, hw⟩
      obtain rfl := Except.ok.inj ht
      exact List.mem_sublists.mpr hw
  refine ((Set.finite_singleton path).union (hfin.biUnion fun c _ => hcut c)).subset ?_
  rintro w (rfl | ⟨file, text, hopen, hw⟩)
  · exact .inl rfl
  · exact .inr (Set.mem_biUnion ⟨file, rfl⟩ ⟨text, hopen, hw⟩)

theorem finite_nodup {α : Type} {S : Set α} (hS : S.Finite) : {l : List α | l.Nodup ∧ ∀ x ∈ l, x ∈ S}.Finite := by
  have := hS.fintype
  refine ((List.finite_length_le S (Fintype.card S)).image (List.map Subtype.val)).subset ?_
  rintro l ⟨hnodup, hmem⟩
  refine ⟨l.attachWith (· ∈ S) hmem, ?_, List.attachWith_map_subtype_val hmem⟩
  have hn : (l.attachWith (· ∈ S) hmem).Nodup := by
    apply List.Nodup.of_map Subtype.val
    rw [List.attachWith_map_subtype_val]
    exact hnodup
  exact hn.length_le_card

theorem finite_within (hW : W.Finite) : {config | Within W config}.Finite := by
  have hdefaults : {e : DefaultEntry | e.type ∈ W ∧ e.name ∈ W}.Finite := by
    refine (hW.image2 DefaultEntry.mk hW).subset ?_
    rintro e ⟨htype, hname⟩
    exact ⟨e.type, htype, e.name, hname, rfl⟩
  have hplugins : {e : PluginEntry | e.type ∈ W ∧ e.name ∈ W ∧ e.library ∈ W}.Finite := by
    refine ((hW.prod (hW.prod hW)).image fun w => (⟨w.1, w.2.1, w.2.2⟩ : PluginEntry)).subset ?_
    rintro e ⟨htype, hname, hlib⟩
    exact ⟨(e.type, e.name, e.library), ⟨htype, hname, hlib⟩, rfl⟩
  refine ((finite_nodup hplugins).image2 ConfigFile.mk (finite_nodup hdefaults)).subset ?_
  intro config h
  exact ⟨config.plugins, ⟨.of_map _ h.pluginsOnce, h.plugins⟩, config.defaultPlugins,
    ⟨.of_map _ h.defaultsOnce, h.defaults⟩, rfl⟩

/-- With finitely many files a parse can only come to finitely many calls. -/
theorem finite_reaches (hfin : (Set.range fopen).Finite) (path : Text) (ignoreError : Bool) :
    {k | ReflTransGen (Calls (configFileParse fopen)) ⟨path, ignoreError, ⟨[], []⟩⟩ k}.Finite := by
  have hW : (words fopen path).Finite := finite_words hfin
  refine ((hW.prod (Set.finite_univ.prod (finite_within hW))).image
    fun c => (⟨c.1, c.2.1, c.2.2⟩ : Call)).subset ?_
  intro k hk
  have hempty : Within (words fopen path) ⟨[], []⟩ := ⟨nofun, nofun, List.nodup_nil, List.nodup_nil⟩
  obtain ⟨hpath, hwithin⟩ := reaches_pre (fun k h => body_safe h) ⟨.inl rfl, hempty⟩ hk
  exact ⟨(k.path, k.ignoreError, k.config), ⟨hpath, trivial, hwithin⟩, rfl⟩

end Ltfs.ConfigReach
