import Ltfs.XmlNames

namespace Ltfs.XmlNamesSpec

open Dentry PathNames XmlReader XmlIndex XmlExtents XmlSpec XmlNames

variable {list table : Entries} {d e : Node} {place : List Nat} {n : Name} {ns : List Name}

theorem addKey_table (table : Entries) (n : Name) (i : Ino) :
    (fsAddKeyToHashTable {} table n i).1 = (n, i) :: table := by
  cases table <;> rfl

/-- A pass moves entries into the table; none is lost and none is added. -/
theorem updateTable_perm (handleDupName : Bool) (table list : Entries) :
    ((updateTable handleDupName table list).1 ++ (updateTable handleDupName table list).2).Perm (table ++ list) := by
  induction list generalizing table with
  | nil => exact List.Perm.refl _
  | cons e list ih =>
    rw [updateTable]
    split_ifs
    · exact List.perm_middle.trans ((List.Perm.cons e (ih table)).trans List.perm_middle.symm)
    · rw [addKey_table]
      exact (ih _).trans List.perm_middle.symm

theorem updateTable_dup (table list : Entries) : (updateTable true table list).2 = [] := by
  induction list generalizing table with
  | nil => rfl
  | cons e list ih =>
    rw [updateTable, if_neg (by simp)]
    exact ih _

/-- All entries of a directory are in its table, also those of one name. -/
theorem fsUpdatePlatformSafeNames_perm (list : Entries) : (fsUpdatePlatformSafeNames list).1.Perm list := by
  have hnormal := updateTable_perm false [] list
  have hdup := updateTable_perm true (updateTable false [] list).1 (updateTable false [] list).2
  rw [updateTable_dup, List.append_nil] at hdup
  rw [fsUpdatePlatformSafeNames, updateTable_dup, updateTable]
  exact hdup.trans hnormal

theorem childList_perm (d : Node) : d.childList.Perm (d.list.map Node.name).zipIdx :=
  fsUpdatePlatformSafeNames_perm _

theorem childList_keys (d : Node) : (d.childList.map Prod.fst).Perm (d.list.map Node.name) := by
  have hperm := (childList_perm d).map Prod.fst
  rwa [List.zipIdx_map_fst] at hperm

theorem directoryLookup_of_nodup {i : Nat} (hnames : (d.list.map Node.name).Nodup) (hi : d.list[i]? = some e)
    (hlength : e.name.length ≤ filenameMax) : d.directoryLookup e.name = some i := by
  have hkeys : (d.childList.map Prod.fst).Nodup := (childList_keys d).nodup_iff.2 hnames
  have hmem : (e.name, i) ∈ d.childList := by
    rw [(childList_perm d).mem_iff, List.mk_mem_zipIdx_iff_getElem?, List.getElem?_map, hi]
    rfl
  have hne : d.childList ≠ [] := List.ne_nil_of_mem hmem
  rw [Node.directoryLookup, if_neg (Nat.not_lt.2 hlength), if_neg hne, Lookup.findKey_eq, if_pos rfl,
    (DentryTree.find_eq_some hkeys).2 hmem]
  rfl

/-- The entries of every directory have different names. -/
def NamesDistinct (root : Node) : Prop :=
  ∀ place d, root.at? place = some d → (d.list.map Node.name).Nodup

/-- The keys of every directory are different, and every dentry is found where its path leads. -/
structure Reachable (root : Node) : Prop where
  keys : ∀ place d, root.at? place = some d → (d.childList.map Prod.fst).Nodup
  found : ∀ place ns, root.names place = some ns → root.fsPathLookup (joinNames (['/'] :: ns)) = some place

/-- The names below a dentry are names of files. -/
inductive Valid : Node → Prop
  | intro {d : Node} (name : ∀ c ∈ d.list, FileName c.name) (below : ∀ c ∈ d.list, Valid c) : Valid d

theorem Valid.fileName (h : Valid d) (hn : d.names place = some ns) : ∀ n ∈ ns, FileName n := by
  induction place generalizing d ns with
  | nil =>
    obtain rfl := Option.some.inj hn
    simp
  | cons i place ih =>
    simp only [Node.names, Option.bind_eq_some_iff, Option.map_eq_some_iff] at hn
    obtain ⟨c, hc, ms, hms, rfl⟩ := hn
    obtain ⟨hname, hbelow⟩ := h
    have hmem := List.mem_of_getElem? hc
    rw [List.forall_mem_cons]
    exact ⟨hname c hmem, ih (hbelow c hmem) hms⟩

theorem walk_of_names (hnames : NamesDistinct d) (hvalid : Valid d) (hn : d.names place = some ns) :
    Node.walk ns d = some place := by
  induction place generalizing d ns with
  | nil =>
    obtain rfl := Option.some.inj hn
    rfl
  | cons i place ih =>
    have hfile := hvalid.fileName hn
    simp only [Node.names, Option.bind_eq_some_iff, Option.map_eq_some_iff] at hn
    obtain ⟨c, hc, ms, hms, rfl⟩ := hn
    obtain ⟨-, hvalid⟩ := hvalid
    have hbelow : NamesDistinct c := by
      intro place' d' hd'
      refine hnames (i :: place') d' ?_
      rw [Node.at?, hc]
      exact hd'
    have hlookup := directoryLookup_of_nodup (hnames [] d rfl) hc (hfile _ List.mem_cons_self).length
    have hrest := ih hbelow (hvalid c (List.mem_of_getElem? hc)) hms
    simp [Node.walk, hlookup, hc, hrest]

theorem names_eq_nil (h : d.names place = some []) : place = [] := by
  cases place with
  | nil => rfl
  | cons i place =>
    simp only [Node.names, Option.bind_eq_some_iff, Option.map_eq_some_iff] at h
    obtain ⟨c, -, ms, -, hms⟩ := h
    cases hms

theorem joinNames_ne_root (hx : ∀ n ∈ ns, FileName n) (hne : ns ≠ []) :
    ¬ (joinNames (['/'] :: ns) = [] ∨ joinNames (['/'] :: ns) = ['/']) := by
  intro h
  have hpath := pathNames_joinNames hx
  rw [if_neg hne] at hpath
  rcases h with h | h
  · simp [joinNames] at h
  · rw [h] at hpath
    have hroot : pathNames ['/'] = [[]] := by decide
    rw [hroot] at hpath
    exact (hx [] (by rw [← hpath]; exact List.mem_singleton_self _)).ne_nil rfl

theorem reachable_iff_namesDistinct (hvalid : Valid d) : Reachable d ↔ NamesDistinct d := by
  constructor
  · intro h place e he
    exact (childList_keys e).nodup_iff.1 (h.keys place e he)
  · intro h
    refine ⟨fun place e he => (childList_keys e).nodup_iff.2 (h place e he), fun place ns hn => ?_⟩
    have hx := hvalid.fileName hn
    by_cases hne : ns = []
    · subst hne
      rw [names_eq_nil hn]
      rfl
    · rw [Node.fsPathLookup, if_neg (joinNames_ne_root hx hne), pathNames_joinNames hx, if_neg hne]
      exact walk_of_names h hvalid hn

section Parse

variable {normalize : List Char → Option Name} {c : Checks} {version : Nat} {x : Xml} {xs children : List Xml}
  {root : Bool} {s s' : FileTags} {t t' : DirTags} {idx idx' : XmlIndex.Index}

theorem xmlParseFilename_fileName (hnormal : ∀ v n, normalize v = some n → v ≠ [] → n ≠ []) {v : List Char}
    (hv : v ≠ []) (h : xmlParseFilename normalize v = some n) : FileName n := by
  simp only [xmlParseFilename, Option.bind_eq_bind, Option.bind_eq_some_iff] at h
  obtain ⟨m, hm, u, hvalid, h⟩ := h
  obtain rfl : m = n := Option.some.inj h
  have hvalid := accept_eq_some hvalid
  simp only [pathnameValidateFile, Bool.and_eq_true, decide_eq_true_eq, List.all_eq_true] at hvalid
  refine ⟨hnormal v m hm hv, fun hslash => ?_, hvalid.1⟩
  have := (hvalid.2 _ hslash).2
  simp at this

theorem getTagText_ne_nil {v : List Char} {rest : List Xml} (h : getTagText x = some (v, rest)) : v ≠ [] := by
  revert h
  fun_cases getTagText x with
  | case1 tag rest' => rintro ⟨⟩
  | case2 tag w rest' hne =>
    rintro ⟨⟩
    exact hne
  | case3 => rintro ⟨⟩

/-- A `name` that the parser has accepted. -/
def NameTag (normalize : List Char → Option Name) (c : Checks) (x : Xml) : Prop :=
  x.tag? = some .name ∧ ∃ seen seen', checkedTag (nameChecks normalize c) .name seen x = some seen'

theorem NameTag.fileName (hnormal : ∀ v n, normalize v = some n → v ≠ [] → n ≠ []) (h : NameTag normalize c x) :
    FileName (nameOf normalize (x :: xs)) := by
  obtain ⟨htag, seen, seen', h⟩ := h
  simp only [checkedTag, textTag, Option.bind_eq_bind, Option.bind_eq_some_iff] at h
  obtain ⟨seen₁, -, u, ⟨⟨v, rest⟩, hv, u₁, hname, u₂, hend, -⟩, -⟩ := h
  have hname : (xmlParseFilename normalize v).isSome = true := by
    simpa [nameChecks] using accept_eq_some hname
  obtain ⟨n, hn⟩ := Option.isSome_iff_exists.1 hname
  have hne : v ≠ [] := getTagText_ne_nil hv
  have hof : nameOf normalize (x :: xs) = n := by
    rw [nameOf, List.find?_cons_of_pos (by simpa using htag)]
    simp [textTag, hv, hn, hend]
  rw [hof]
  exact xmlParseFilename_fileName hnormal hne hn

theorem nameOf_cons (h : x.tag? ≠ some .name) : nameOf normalize (x :: xs) = nameOf normalize xs := by
  rw [nameOf, List.find?_cons_of_neg (by simpa using h)]
  rfl

/-- A tag of another name. -/
def OtherTag (x : Xml) (seen seen' : List Tag) : Prop :=
  x.tag? ≠ some .name ∧ (.name ∈ seen' → .name ∈ seen)

theorem otherTag_cons {tag : Tag} {seen : List Tag} (htag : x.tag? = some tag) (hne : tag ≠ .name) :
    OtherTag x seen (tag :: seen) := by
  refine ⟨by simpa [htag] using hne, fun h => ?_⟩
  exact (List.mem_cons.1 h).resolve_left (fun e => hne e.symm)

theorem otherTag_refl {tag : Tag} {seen : List Tag} (htag : x.tag? = some tag) (hne : tag ≠ .name) :
    OtherTag x seen seen :=
  ⟨by simpa [htag] using hne, id⟩

theorem xattrsTag_tag {seen seen' : List Tag} (htag : x.tag? = some .extendedattributes)
    (h : xattrsTag c seen x = some seen') : OtherTag x seen seen' := by
  cases x with
  | element tag children =>
    simp only [xattrsTag, Option.bind_eq_bind, Option.bind_eq_some_iff, checkTag_eq_some] at h
    obtain ⟨k, ⟨-, rfl⟩, u, -, h⟩ := h
    obtain rfl := Option.some.inj h
    exact otherTag_cons rfl (by simp_all)
  | empty tag =>
    obtain rfl := (checkTag_eq_some.1 h).2
    exact otherTag_cons rfl (by simp_all)
  | text v => cases h
  | other => cases h

theorem fileTag_name (h : fileTag (nameChecks normalize c) version s x = some s') :
    NameTag normalize c x ∨ OtherTag x s.seen s'.seen := by
  rw [fileTag] at h
  split at h
  case h_1 htag =>
    obtain ⟨seen, hseen, h⟩ := Option.bind_eq_some_iff.1 h
    exact .inl ⟨htag, _, _, hseen⟩
  case h_4 htag | h_5 htag | h_6 htag | h_7 htag =>
    obtain ⟨seen, hseen, h⟩ := Option.bind_eq_some_iff.1 h
    obtain rfl := checkedTag_seen hseen
    obtain rfl := Option.some.inj h
    exact .inr (otherTag_cons htag (by simp))
  case h_2 htag | h_3 htag =>
    simp only [Option.bind_eq_bind, Option.bind_eq_some_iff, checkTag_eq_some] at h
    obtain ⟨seen, ⟨-, rfl⟩, v, -, h⟩ := h
    obtain rfl := Option.some.inj h
    exact .inr (otherTag_cons htag (by simp))
  case h_8 htag =>
    obtain ⟨seen, hseen, h⟩ := Option.bind_eq_some_iff.1 h
    obtain rfl := Option.some.inj h
    exact .inr (xattrsTag_tag htag hseen)
  case h_9 htag =>
    simp only [Option.bind_eq_bind, Option.bind_eq_some_iff, checkTag_eq_some] at h
    obtain ⟨seen, ⟨-, rfl⟩, h⟩ := h
    split at h
    · obtain ⟨file, -, h⟩ := Option.bind_eq_some_iff.1 h
      obtain rfl := Option.some.inj h
      exact .inr (otherTag_cons htag (by simp))
    · obtain rfl := Option.some.inj h
      exact .inr (otherTag_cons htag (by simp))
  case h_10 htag =>
    simp only [Option.bind_eq_bind, Option.bind_eq_some_iff, checkTag_eq_some] at h
    obtain ⟨seen, ⟨-, rfl⟩, v, -, h⟩ := h
    obtain rfl := Option.some.inj h
    exact .inr (otherTag_cons htag (by simp))
  case h_11 htag =>
    split_ifs at h
    · simp only [Option.bind_eq_bind, Option.bind_eq_some_iff, checkTag_eq_some] at h
      obtain ⟨seen, ⟨-, rfl⟩, v, -, h⟩ := h
      obtain rfl := Option.some.inj h
      exact .inr (otherTag_cons htag (by simp))
    · obtain rfl := Option.some.inj h
      exact .inr (otherTag_refl htag (by simp))
  case h_12 htag =>
    split_ifs at h
    · obtain ⟨seen, hseen, h⟩ := Option.bind_eq_some_iff.1 h
      obtain rfl := checkedTag_seen hseen
      obtain rfl := Option.some.inj h
      exact .inr (otherTag_cons htag (by simp))
    · obtain rfl := Option.some.inj h
      exact .inr (otherTag_refl htag (by simp))
  case h_13 htag _ _ _ _ _ _ _ _ _ _ _ =>
    obtain rfl := Option.some.inj h
    exact .inr ⟨htag, id⟩

/-- If `name` is met among the tags of a file, the first one names it. -/
theorem fileTags_fileName (hnormal : ∀ v n, normalize v = some n → v ≠ [] → n ≠ [])
    (h : xs.foldlM (fileTag (nameChecks normalize c) version) s = some s') (hnew : .name ∉ s.seen)
    (hmet : .name ∈ s'.seen) : FileName (nameOf normalize xs) := by
  induction xs generalizing s with
  | nil =>
    obtain rfl : s = s' := Option.some.inj h
    exact absurd hmet hnew
  | cons x xs ih =>
    rw [List.foldlM_cons, Option.bind_eq_bind, Option.bind_eq_some_iff] at h
    obtain ⟨s₁, h₁, h⟩ := h
    rcases fileTag_name h₁ with hname | ⟨hne, hkept⟩
    · exact hname.fileName hnormal
    · rw [nameOf_cons hne]
      exact ih h (fun h => hnew (hkept h))

theorem checkRequiredTags_mem {required seen : List Tag} {u : Unit} {tag : Tag}
    (h : checkRequiredTags required seen = some u) (hmem : tag ∈ required) : tag ∈ seen := by
  rw [checkRequiredTags] at h
  split_ifs at h with hall
  simpa using List.all_eq_true.1 hall tag hmem

theorem oldBackuptime_name {seen seen' : List Tag} (h : oldBackuptime version seen = some seen') (hmem : .name ∈ seen') :
    .name ∈ seen := by
  rw [oldBackuptime] at h
  split_ifs at h
  · obtain rfl := (checkTag_eq_some.1 h).2
    simpa using hmem
  · rwa [Option.some.inj h]

theorem xmlParseFile_fileName (hnormal : ∀ v n, normalize v = some n → v ≠ [] → n ≠ [])
    (h : xmlParseFile (nameChecks normalize c) version children idx = some idx') :
    FileName (nameOf normalize (fileNodes children)) := by
  simp only [xmlParseFile, fileEnd, Option.bind_eq_bind, Option.bind_eq_some_iff] at h
  obtain ⟨s, hs, s₁, hs₁, seen, hseen, u, hrequired, -⟩ := h
  have hname := oldBackuptime_name hseen (checkRequiredTags_mem hrequired (by simp))
  refine fileTags_fileName hnormal hs (by simp) ?_
  rw [oldFileuid] at hs₁
  split_ifs at hs₁
  · simp only [Option.bind_eq_bind, Option.bind_eq_some_iff, checkTag_eq_some] at hs₁
    obtain ⟨seen₁, ⟨-, rfl⟩, hs₁⟩ := hs₁
    obtain rfl := Option.some.inj hs₁
    simpa using hname
  · obtain rfl := Option.some.inj hs₁
    exact hname

theorem dirTag_name (h : dirTag (nameChecks normalize c) version false t idx x = some (t', idx')) :
    NameTag normalize c x ∨ OtherTag x t.seen t'.seen := by
  rw [dirTag] at h
  split at h
  case h_1 htag =>
    obtain ⟨seen, hseen, h⟩ := Option.bind_eq_some_iff.1 h
    rw [nameTag, if_neg (by simp)] at hseen
    exact .inl ⟨htag, _, _, hseen⟩
  case h_2 htag =>
    simp only [Option.bind_eq_bind, Option.bind_eq_some_iff, checkTag_eq_some] at h
    obtain ⟨seen, ⟨-, rfl⟩, v, -, h⟩ := h
    obtain ⟨rfl, -⟩ := Prod.mk.inj (Option.some.inj h)
    exact .inr (otherTag_cons htag (by simp))
  case h_3 htag | h_4 htag | h_5 htag | h_6 htag =>
    obtain ⟨seen, hseen, h⟩ := Option.bind_eq_some_iff.1 h
    obtain rfl := checkedTag_seen hseen
    obtain ⟨rfl, -⟩ := Prod.mk.inj (Option.some.inj h)
    exact .inr (otherTag_cons htag (by simp))
  case h_7 htag =>
    obtain ⟨seen, hseen, h⟩ := Option.bind_eq_some_iff.1 h
    obtain rfl := (checkTag_eq_some.1 hseen).2
    obtain ⟨rfl, -⟩ := Prod.mk.inj (Option.some.inj h)
    exact .inr (otherTag_cons htag (by simp))
  case h_8 htag =>
    obtain ⟨seen, hseen, h⟩ := Option.bind_eq_some_iff.1 h
    obtain ⟨rfl, -⟩ := Prod.mk.inj (Option.some.inj h)
    exact .inr (xattrsTag_tag htag hseen)
  case h_9 htag =>
    split_ifs at h
    · simp only [Option.bind_eq_bind, Option.bind_eq_some_iff, checkTag_eq_some] at h
      obtain ⟨seen, ⟨-, rfl⟩, v, -, h⟩ := h
      obtain ⟨rfl, -⟩ := Prod.mk.inj (Option.some.inj h)
      exact .inr (otherTag_cons htag (by simp))
    · obtain ⟨rfl, -⟩ := Prod.mk.inj (Option.some.inj h)
      exact .inr (otherTag_refl htag (by simp))
  case h_10 htag =>
    split_ifs at h
    · obtain ⟨seen, hseen, h⟩ := Option.bind_eq_some_iff.1 h
      obtain rfl := checkedTag_seen hseen
      obtain ⟨rfl, -⟩ := Prod.mk.inj (Option.some.inj h)
      exact .inr (otherTag_cons htag (by simp))
    · obtain ⟨rfl, -⟩ := Prod.mk.inj (Option.some.inj h)
      exact .inr (otherTag_refl htag (by simp))
  case h_11 htag _ _ _ _ _ _ _ _ _ =>
    obtain ⟨rfl, -⟩ := Prod.mk.inj (Option.some.inj h)
    exact .inr ⟨htag, id⟩

theorem dirtreeTag_name (h : dirtreeTag (nameChecks normalize c) version x false t idx = some (t', idx')) :
    NameTag normalize c x ∨ OtherTag x t.seen t'.seen := by
  cases x with
  | element tag children =>
    rw [dirtreeTag] at h
    split_ifs at h with htag
    · simp only [Option.bind_eq_bind, Option.bind_eq_some_iff, checkTag_eq_some] at h
      obtain ⟨seen, ⟨-, rfl⟩, idx₁, -, u, -, h⟩ := h
      obtain ⟨rfl, -⟩ := Prod.mk.inj (Option.some.inj h)
      subst htag
      exact .inr (otherTag_cons rfl (by simp))
    · exact dirTag_name h
  | empty tag =>
    rw [dirtreeTag] at h
    exact dirTag_name h
  | text v =>
    rw [dirtreeTag] at h
    obtain ⟨rfl, -⟩ := Prod.mk.inj (Option.some.inj h)
    exact .inr ⟨by simp [Xml.tag?], id⟩
  | other =>
    rw [dirtreeTag] at h
    obtain ⟨rfl, -⟩ := Prod.mk.inj (Option.some.inj h)
    exact .inr ⟨by simp [Xml.tag?], id⟩

theorem dirtreeTags_fileName (hnormal : ∀ v n, normalize v = some n → v ≠ [] → n ≠ [])
    (h : dirtreeTags (nameChecks normalize c) version xs false t idx = some (t', idx')) (hnew : .name ∉ t.seen)
    (hmet : .name ∈ t'.seen) : FileName (nameOf normalize xs) := by
  induction xs generalizing t idx with
  | nil =>
    rw [dirtreeTags] at h
    obtain ⟨rfl, -⟩ := Prod.mk.inj (Option.some.inj h)
    exact absurd hmet hnew
  | cons x xs ih =>
    rw [dirtreeTags, Option.bind_eq_bind, Option.bind_eq_some_iff] at h
    obtain ⟨⟨t₁, idx₁⟩, h₁, h⟩ := h
    rcases dirtreeTag_name h₁ with hname | ⟨hne, hkept⟩
    · exact hname.fileName hnormal
    · rw [nameOf_cons hne]
      exact ih h (fun h => hnew (hkept h))

theorem dirEnd_name (h : dirEnd version root t idx = some idx') : .name ∈ t.seen := by
  simp only [dirEnd, Option.bind_eq_bind, Option.bind_eq_some_iff] at h
  obtain ⟨⟨t₁, idx₁⟩, h₁, seen, hseen, u, hrequired, -⟩ := h
  have hname := oldBackuptime_name hseen (checkRequiredTags_mem hrequired (by simp))
  rw [oldDiruid] at h₁
  split_ifs at h₁
  · simp only [Option.bind_eq_bind, Option.bind_eq_some_iff, checkTag_eq_some] at h₁
    obtain ⟨seen₁, ⟨-, rfl⟩, h₁⟩ := h₁
    obtain ⟨rfl, -⟩ := Prod.mk.inj (Option.some.inj h₁)
    simpa using hname
  · simp only [Option.bind_eq_bind, Option.bind_eq_some_iff, checkTag_eq_some] at h₁
    obtain ⟨seen₁, ⟨-, rfl⟩, h₁⟩ := h₁
    obtain ⟨rfl, -⟩ := Prod.mk.inj (Option.some.inj h₁)
    simpa using hname
  · obtain ⟨rfl, -⟩ := Prod.mk.inj (Option.some.inj h₁)
    exact hname

/-- The dentries of a part of the document have names, and so have those below them. -/
def AllValid (nodes : List Node) : Prop := ∀ d ∈ nodes, FileName d.name ∧ Valid d

-- Over the tree, each loop has passed dentries that are well named.
mutual

theorem dirtreeTag_valid (hnormal : ∀ v n, normalize v = some n → v ≠ [] → n ≠ []) : (x : Xml) → {root : Bool} →
    {t t' : DirTags} → {idx idx' : XmlIndex.Index} →
    dirtreeTag (nameChecks normalize c) version x root t idx = some (t', idx') → AllValid (contentsNodes normalize x)
  | .element tag children, root, t, t', idx, idx', h => by
    rw [dirtreeTag] at h
    rw [contentsNodes]
    split_ifs at h ⊢ with htag
    · simp only [Option.bind_eq_bind, Option.bind_eq_some_iff] at h
      obtain ⟨seen, -, idx₁, h₁, -⟩ := h
      exact dirContentsTags_valid hnormal children h₁
    · simp [AllValid]
  | .empty tag, root, t, t', idx, idx', h => by simp [contentsNodes, AllValid]
  | .text v, root, t, t', idx, idx', h => by simp [contentsNodes, AllValid]
  | .other, root, t, t', idx, idx', h => by simp [contentsNodes, AllValid]

theorem dirtreeTags_valid (hnormal : ∀ v n, normalize v = some n → v ≠ [] → n ≠ []) : (xs : List Xml) → {root : Bool} →
    {t t' : DirTags} → {idx idx' : XmlIndex.Index} →
    dirtreeTags (nameChecks normalize c) version xs root t idx = some (t', idx') → AllValid (nodesBelow normalize xs)
  | [], root, t, t', idx, idx', h => by simp [nodesBelow, AllValid]
  | x :: rest, root, t, t', idx, idx', h => by
    rw [dirtreeTags, Option.bind_eq_bind, Option.bind_eq_some_iff] at h
    obtain ⟨⟨t₁, idx₁⟩, h₁, h⟩ := h
    rw [nodesBelow, AllValid, List.forall_mem_append]
    exact ⟨dirtreeTag_valid hnormal x h₁, dirtreeTags_valid hnormal rest h⟩

theorem dirContentsTag_valid (hnormal : ∀ v n, normalize v = some n → v ≠ [] → n ≠ []) : (x : Xml) →
    {idx idx' : XmlIndex.Index} →
    dirContentsTag (nameChecks normalize c) version x idx = some idx' → AllValid (entryNodes normalize x)
  | .element tag children, idx, idx', h => by
    rw [dirContentsTag] at h
    rw [entryNodes]
    split_ifs at h ⊢ with hfile hdir
    · rw [AllValid, List.forall_mem_singleton]
      exact ⟨xmlParseFile_fileName hnormal h, .intro (by simp [Node.list]) (by simp [Node.list])⟩
    · simp only [Option.bind_eq_bind, Option.bind_eq_some_iff] at h
      obtain ⟨⟨t₁, idx₁⟩, h₁, h⟩ := h
      have hbelow := dirtreeTags_valid hnormal children h₁
      rw [AllValid, List.forall_mem_singleton]
      exact ⟨dirtreeTags_fileName hnormal h₁ (by simp) (dirEnd_name h),
        .intro (fun d hd => (hbelow d hd).1) (fun d hd => (hbelow d hd).2)⟩
    · simp [AllValid]
  | .empty tag, idx, idx', h => by simp [entryNodes, AllValid]
  | .text v, idx, idx', h => by simp [entryNodes, AllValid]
  | .other, idx, idx', h => by simp [entryNodes, AllValid]

theorem dirContentsTags_valid (hnormal : ∀ v n, normalize v = some n → v ≠ [] → n ≠ []) : (xs : List Xml) →
    {idx idx' : XmlIndex.Index} →
    dirContentsTags (nameChecks normalize c) version xs idx = some idx' → AllValid (nodesIn normalize xs)
  | [], idx, idx', h => by simp [nodesIn, AllValid]
  | x :: rest, idx, idx', h => by
    rw [dirContentsTags, Option.bind_eq_bind, Option.bind_eq_some_iff] at h
    obtain ⟨idx₁, h₁, h⟩ := h
    rw [nodesIn, AllValid, List.forall_mem_append]
    exact ⟨dirContentsTag_valid hnormal x h₁, dirContentsTags_valid hnormal rest h⟩

end

theorem schemaTags_valid (hnormal : ∀ v n, normalize v = some n → v ≠ [] → n ≠ []) {r r' : SchemaTags}
    (h : xs.foldlM (schemaTag (nameChecks normalize c) version) r = some r') :
    AllValid ((bodies .directory xs).flatMap (nodesBelow normalize)) := by
  induction xs generalizing r with
  | nil => simp [bodies, AllValid]
  | cons x xs ih =>
    rw [List.foldlM_cons, Option.bind_eq_bind, Option.bind_eq_some_iff] at h
    obtain ⟨r₁, h₁, h⟩ := h
    rw [bodies_cons _ x xs, List.flatMap_append, AllValid, List.forall_mem_append]
    refine ⟨?_, ih h⟩
    rcases schemaTag_cases h₁ with ⟨children, rfl, hdir⟩ | ⟨hnone, -⟩
    · simp only [xmlParseDirtree, Option.bind_eq_bind, Option.bind_eq_some_iff] at hdir
      obtain ⟨⟨t, idx⟩, htags, -⟩ := hdir
      have hbody : (bodies .directory [Xml.element .directory children]).flatMap (nodesBelow normalize) =
          nodesBelow normalize children := by simp [bodies]
      rw [hbody]
      exact dirtreeTags_valid hnormal children htags
    · simp [hnone]

theorem rootNode_valid (hnormal : ∀ v n, normalize v = some n → v ≠ [] → n ≠ []) {doc : Document}
    (h : xmlParseSchema (nameChecks normalize c) doc = .ok idx) : Valid (rootNode normalize doc) := by
  rw [xmlParseSchema] at h
  split_ifs at h
  split at h
  · cases h
  · next idx₁ hidx =>
    simp only [schemaIndex, Option.bind_eq_bind, Option.bind_eq_some_iff] at hidx
    obtain ⟨r, hr, -⟩ := hidx
    have hall := schemaTags_valid hnormal hr
    exact .intro (fun d hd => (hall d hd).1) (fun d hd => (hall d hd).2)

/-- In a document that the parser accepts, the keys of every directory are different and every dentry is reached
by its path just if no directory of the document has two entries of one name. -/
theorem reachable_iff (hnormal : ∀ v n, normalize v = some n → v ≠ [] → n ≠ []) {doc : Document}
    (h : xmlParseSchema (nameChecks normalize c) doc = .ok idx) :
    Reachable (rootNode normalize doc) ↔ NamesDistinct (rootNode normalize doc) :=
  reachable_iff_namesDistinct (rootNode_valid hnormal h)

end Parse

/-- A file without extents. -/
def namedFile (name : List Char) (uid : Char) : Xml :=
  .element .file ([leaf .name name, leaf .length ['0'], leaf .readonly ['0'], leaf .fileuid [uid]] ++ times)

/-- An index of version 2.2.0 with two files in the root directory. -/
def twoFiles (name name' : List Char) : Document where
  version := makeLtfsVersion 2 2 0
  children := [leaf .creator ['m'], leaf .volumeuuid uuid, leaf .generationnumber ['3'], leaf .updatetime time,
    position .location 'a' '5', position .previousgenerationlocation 'b' '8', leaf .allowpolicyupdate ['0'],
    leaf .highestfileuid ['3'],
    .element .directory ([.empty .name, leaf .readonly ['0'], leaf .fileuid ['1']] ++ times ++
      [.element .contents [namedFile name '2', namedFile name' '3']])]

def twoFilesIndex : XmlIndex.Index := ⟨3, 0, [⟨0, 2, none, 0, 0, []⟩, ⟨0, 3, none, 0, 0, []⟩]⟩

theorem twoFiles_accepted : xmlParseSchema (nameChecks some checks) (twoFiles ['a'] ['b']) = .ok twoFilesIndex := by
  decide +kernel

theorem twins_accepted : xmlParseSchema (nameChecks some checks) (twoFiles ['a'] ['a']) = .ok twoFilesIndex := by
  decide +kernel

/-- Two files of one name are accepted. They have one key, and the path leads to the second. -/
theorem twins_shadowed :
    xmlParseSchema (nameChecks some checks) (twoFiles ['a'] ['a']) = .ok twoFilesIndex ∧
      (rootNode some (twoFiles ['a'] ['a'])).names [0] = some [['a']] ∧
      (rootNode some (twoFiles ['a'] ['a'])).fsPathLookup ['/', 'a'] = some [1] ∧
      ¬ Reachable (rootNode some (twoFiles ['a'] ['a'])) := by
  refine ⟨twins_accepted, by decide, by decide, fun h => ?_⟩
  have hkeys := h.keys [] _ rfl
  exact absurd hkeys (by decide)

theorem reachable_iff_twoFiles :
    xmlParseSchema (nameChecks some checks) (twoFiles ['a'] ['b']) = .ok twoFilesIndex ∧
      (Reachable (rootNode some (twoFiles ['a'] ['b'])) ↔ NamesDistinct (rootNode some (twoFiles ['a'] ['b']))) :=
  ⟨twoFiles_accepted, reachable_iff (fun _ _ h hv => Option.some.inj h ▸ hv) twoFiles_accepted⟩

end Ltfs.XmlNamesSpec
