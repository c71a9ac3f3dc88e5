import Ltfs.XmlExtents

namespace Ltfs.XmlSpec

open Format XmlReader XmlIndex XmlExtents

variable {c : Checks} {version : Nat} {n : Xml} {ns : List Xml} {seen seen' : List Tag}

theorem checkedTag_seen {t : Tag} (h : checkedTag c t seen n = some seen') : seen' = t :: seen := by
  simp only [checkedTag, Option.bind_eq_bind, Option.bind_eq_some_iff, checkTag_eq_some] at h
  obtain ⟨k, ⟨-, rfl⟩, u, -, h⟩ := h
  exact (Option.some.inj h).symm

theorem xattrsTag_seen (h : xattrsTag c seen n = some seen') : ∃ t, seen' = t :: seen := by
  cases n with
  | element t children =>
    simp only [xattrsTag, Option.bind_eq_bind, Option.bind_eq_some_iff, checkTag_eq_some] at h
    obtain ⟨k, ⟨-, rfl⟩, u, -, h⟩ := h
    exact ⟨t, (Option.some.inj h).symm⟩
  | empty t => exact ⟨t, (checkTag_eq_some.1 h).2⟩
  | text v => cases h
  | other => cases h

/-- A tag other than a filled `extentinfo` leaves the extent list alone. -/
def KeepsExtents (s : FileTags) (n : Xml) (s' : FileTags) : Prop :=
  bodies .extentinfo [n] = [] ∧ s'.file.extentlist = s.file.extentlist ∧
    (s.file.size < 2 ^ 64 → s'.file.size < 2 ^ 64) ∧ (.extentinfo ∈ s.seen → .extentinfo ∈ s'.seen)

theorem bodies_of_tag {t : Tag} (h : n.tag? ≠ some t) : bodies t [n] = [] := by
  cases n with
  | element t' children =>
    have ht : t' ≠ t := fun e => h (by rw [e]; rfl)
    simp [bodies, ht]
  | empty t' => rfl
  | text v => rfl
  | other => rfl

variable {s s' : FileTags}

theorem keepsExtents_seen (ht : n.tag? ≠ some .extentinfo) {t : Tag}
    (hs : s' = { s with seen := t :: s.seen }) : KeepsExtents s n s' := by
  subst hs
  exact ⟨bodies_of_tag ht, rfl, id, List.mem_cons_of_mem _⟩

theorem fileTag_cases (h : fileTag c version s n = some s') :
    (∃ es, n = .element .extentinfo es ∧ .extentinfo ∉ s.seen ∧ .extentinfo ∈ s'.seen ∧
      xmlParseExtents c version s.file es = some s'.file) ∨ KeepsExtents s n s' := by
  rw [fileTag] at h
  split at h
  case h_1 ht | h_4 ht | h_5 ht | h_6 ht | h_7 ht =>
    simp only [Option.bind_eq_bind, Option.bind_eq_some_iff] at h
    obtain ⟨seen, hseen, h⟩ := h
    obtain rfl := checkedTag_seen hseen
    exact .inr (keepsExtents_seen (by simp [ht]) (Option.some.inj h).symm)
  case h_2 ht =>
    simp only [Option.bind_eq_bind, Option.bind_eq_some_iff, checkTag_eq_some] at h
    obtain ⟨seen, ⟨-, rfl⟩, size, hsize, h⟩ := h
    obtain rfl := Option.some.inj h
    exact .inr ⟨bodies_of_tag (by simp [ht]), rfl, fun _ => textTag_lt hsize, List.mem_cons_of_mem _⟩
  case h_3 ht =>
    simp only [Option.bind_eq_bind, Option.bind_eq_some_iff, checkTag_eq_some] at h
    obtain ⟨seen, ⟨-, rfl⟩, b, -, h⟩ := h
    exact .inr (keepsExtents_seen (by simp [ht]) (Option.some.inj h).symm)
  case h_8 ht =>
    simp only [Option.bind_eq_bind, Option.bind_eq_some_iff] at h
    obtain ⟨seen, hseen, h⟩ := h
    obtain ⟨t, rfl⟩ := xattrsTag_seen hseen
    exact .inr (keepsExtents_seen (by simp [ht]) (Option.some.inj h).symm)
  case h_9 ht =>
    simp only [Option.bind_eq_bind, Option.bind_eq_some_iff, checkTag_eq_some] at h
    obtain ⟨seen, ⟨hnew, rfl⟩, h⟩ := h
    split at h
    · next t es =>
      obtain ⟨file, hfile, h⟩ := Option.bind_eq_some_iff.1 h
      obtain rfl := Option.some.inj h
      obtain rfl : t = .extentinfo := Option.some.inj ht
      exact .inl ⟨es, rfl, hnew, List.mem_cons_self, hfile⟩
    · next hne =>
      obtain rfl := Option.some.inj h
      refine .inr ⟨?_, rfl, id, List.mem_cons_of_mem _⟩
      cases n with
      | element t es => exact absurd rfl (hne t es)
      | empty t => rfl
      | text v => rfl
      | other => rfl
  case h_10 ht =>
    simp only [Option.bind_eq_bind, Option.bind_eq_some_iff, checkTag_eq_some] at h
    obtain ⟨seen, ⟨-, rfl⟩, v, -, h⟩ := h
    obtain rfl := Option.some.inj h
    exact .inr ⟨bodies_of_tag (by simp [ht]), rfl, id, List.mem_cons_of_mem _⟩
  case h_11 ht =>
    split_ifs at h
    · simp only [Option.bind_eq_bind, Option.bind_eq_some_iff, checkTag_eq_some] at h
      obtain ⟨seen, ⟨-, rfl⟩, uid, -, h⟩ := h
      obtain rfl := Option.some.inj h
      exact .inr ⟨bodies_of_tag (by simp [ht]), rfl, id, List.mem_cons_of_mem _⟩
    · obtain rfl := Option.some.inj h
      exact .inr ⟨bodies_of_tag (by simp [ht]), rfl, id, id⟩
  case h_12 ht =>
    split_ifs at h
    · simp only [Option.bind_eq_bind, Option.bind_eq_some_iff] at h
      obtain ⟨seen, hseen, h⟩ := h
      obtain rfl := checkedTag_seen hseen
      exact .inr (keepsExtents_seen (by simp [ht]) (Option.some.inj h).symm)
    · obtain rfl := Option.some.inj h
      exact .inr ⟨bodies_of_tag (by simp [ht]), rfl, id, id⟩
  case h_13 ht _ _ _ =>
    obtain rfl := Option.some.inj h
    exact .inr ⟨bodies_of_tag ht, rfl, id, id⟩

/-- What holds of a file while its tags are read: until `extentinfo` is met there is no extent. -/
structure Reading (s : FileTags) : Prop where
  size : s.file.size < 2 ^ 64
  placed : Placed s.file.extentlist
  unread : .extentinfo ∉ s.seen → s.file.extentlist = []

theorem fileTag_reading (hs : Reading s) (h : fileTag c version s n = some s') :
    Reading s' ∧ ((∀ y ∈ s'.file.extentlist, NoWrap y) ↔
      (∀ y ∈ s.file.extentlist, NoWrap y) ∧ ∀ es ∈ bodies .extentinfo [n], ExtentsInRange version es) := by
  rcases fileTag_cases h with ⟨es, rfl, hnew, hmem, hes⟩ | ⟨hn, hext, hsize, hmem⟩
  · have hnil := hs.unread hnew
    obtain ⟨hsz, hplaced⟩ := xmlParseExtents_placed hes hs.placed
    refine ⟨⟨hsz ▸ hs.size, hplaced, fun hno => absurd hmem hno⟩, ?_⟩
    rw [noWrap_iff_inRange hnil hes, hnil]
    simp [bodies]
  · refine ⟨⟨hsize hs.size, hext ▸ hs.placed, fun hno => ?_⟩, ?_⟩
    · rw [hext]
      exact hs.unread (fun h => hno (hmem h))
    · rw [hext, hn]
      simp

theorem fileTags_reading (hs : Reading s) (h : ns.foldlM (fileTag c version) s = some s') :
    Reading s' ∧ ((∀ y ∈ s'.file.extentlist, NoWrap y) ↔
      (∀ y ∈ s.file.extentlist, NoWrap y) ∧ ∀ es ∈ bodies .extentinfo ns, ExtentsInRange version es) := by
  induction ns generalizing s with
  | nil =>
    obtain rfl : s = s' := Option.some.inj h
    exact ⟨hs, by simp [bodies]⟩
  | cons n ns ih =>
    rw [List.foldlM_cons, Option.bind_eq_bind, Option.bind_eq_some_iff] at h
    obtain ⟨u, hu, h⟩ := h
    obtain ⟨hu, hiff⟩ := fileTag_reading hs hu
    obtain ⟨hs', hiff'⟩ := ih hu h
    refine ⟨hs', ?_⟩
    rw [hiff', hiff, bodies_cons _ n ns, List.forall_mem_append, and_assoc]

/-- Every file read so far has its extents in place. -/
def AllPlaced (files : List File) : Prop := ∀ f ∈ files, WellPlaced f.size f.extentlist

variable {idx idx' : XmlIndex.Index} {root : Bool} {children : List Xml}

theorem oldFileuid_file (h : oldFileuid version s = some s') :
    s'.file.extentlist = s.file.extentlist ∧ s'.file.size = s.file.size := by
  rw [oldFileuid] at h
  split_ifs at h
  · obtain ⟨seen, -, h⟩ := Option.bind_eq_some_iff.1 h
    obtain rfl := Option.some.inj h
    exact ⟨rfl, rfl⟩
  · obtain rfl := Option.some.inj h
    exact ⟨rfl, rfl⟩

theorem accept_eq_some {b : Bool} {u : Unit} (h : accept b = some u) : b = true := by
  rw [accept] at h
  split_ifs at h with hb
  exact hb

theorem fileEnd_spec (h : fileEnd version s idx = some idx') :
    ∃ f : File, f.extentlist = s.file.extentlist ∧ f.size = s.file.size ∧ listEnd f.extentlist ≤ f.size ∧
      idx'.files = idx.files ++ [f] := by
  simp only [fileEnd, Option.bind_eq_bind, Option.bind_eq_some_iff] at h
  obtain ⟨s₁, hs₁, seen, -, u, -, u₁, hend, u₂, -, h⟩ := h
  obtain rfl := Option.some.inj h
  obtain ⟨hext, hsize⟩ := oldFileuid_file hs₁
  exact ⟨s₁.file, hext, hsize, by simpa using accept_eq_some hend, rfl⟩

theorem reading_new (uidNumber : Nat) : Reading ⟨[], newFile, false, false, uidNumber⟩ :=
  ⟨Nat.two_pow_pos 64, placed_nil, fun _ => rfl⟩

theorem xmlParseFile_files (h : xmlParseFile c version children idx = some idx') :
    AllPlaced idx'.files ↔ AllPlaced idx.files ∧ FileInRange version children := by
  simp only [xmlParseFile, Option.bind_eq_bind, Option.bind_eq_some_iff] at h
  obtain ⟨s, hs, h⟩ := h
  obtain ⟨hread, hiff⟩ := fileTags_reading (reading_new _) hs
  obtain ⟨f, hext, hsize, hend, hfiles⟩ := fileEnd_spec h
  have hf : WellPlaced f.size f.extentlist ↔ FileInRange version children := by
    rw [wellPlaced_iff_noWrap (hext ▸ hread.placed) (hsize ▸ hread.size) hend, hext, hiff, FileInRange]
    simp [newFile]
  rw [AllPlaced, hfiles, List.forall_mem_append, List.forall_mem_singleton, hf]
  rfl

theorem dirTag_files {t t' : DirTags} (h : dirTag c version root t idx n = some (t', idx')) :
    idx'.files = idx.files := by
  rw [dirTag] at h
  split at h
  case h_9 | h_10 =>
    split_ifs at h
    · simp only [Option.bind_eq_bind, Option.bind_eq_some_iff] at h
      grind
    · grind
  all_goals
    first
    | grind
    | simp only [Option.bind_eq_bind, Option.bind_eq_some_iff] at h
      grind

theorem oldDiruid_files {t t' : DirTags} (h : oldDiruid version root t idx = some (t', idx')) :
    idx'.files = idx.files := by
  rw [oldDiruid] at h
  split_ifs at h
  · obtain ⟨seen, -, h⟩ := Option.bind_eq_some_iff.1 h
    exact (congrArg (fun p => p.2.files) (Option.some.inj h)).symm
  · obtain ⟨seen, -, h⟩ := Option.bind_eq_some_iff.1 h
    exact (congrArg (fun p => p.2.files) (Option.some.inj h)).symm
  · exact (congrArg (fun p => p.2.files) (Option.some.inj h)).symm

theorem dirEnd_files {t : DirTags} (h : dirEnd version root t idx = some idx') : idx'.files = idx.files := by
  simp only [dirEnd, Option.bind_eq_bind, Option.bind_eq_some_iff] at h
  obtain ⟨⟨t₁, idx₁⟩, h₁, seen, -, u, -, u₁, -, h⟩ := h
  obtain rfl := Option.some.inj h
  exact oldDiruid_files h₁

-- Over the tree, each loop keeps the equivalence for the files it has passed.
mutual

theorem dirtreeTag_files : (n : Xml) → {root : Bool} → {t t' : DirTags} → {idx idx' : XmlIndex.Index} →
    dirtreeTag c version n root t idx = some (t', idx') →
      (AllPlaced idx'.files ↔ AllPlaced idx.files ∧ ∀ f ∈ filesOfContents n, FileInRange version f)
  | .element tag children, root, t, t', idx, idx', h => by
    rw [dirtreeTag] at h
    rw [filesOfContents]
    split_ifs at h ⊢ with htag
    · simp only [Option.bind_eq_bind, Option.bind_eq_some_iff] at h
      obtain ⟨seen, -, idx₁, h₁, u, -, h⟩ := h
      obtain ⟨-, rfl⟩ := Prod.mk.inj (Option.some.inj h)
      exact dirContentsTags_files children h₁
    · rw [dirTag_files h]
      simp
  | .empty tag, root, t, t', idx, idx', h => by
    rw [dirtreeTag] at h
    rw [dirTag_files h, filesOfContents]
    simp
  | .text v, root, t, t', idx, idx', h => by
    rw [dirtreeTag] at h
    obtain ⟨-, rfl⟩ := Prod.mk.inj (Option.some.inj h)
    simp [filesOfContents]
  | .other, root, t, t', idx, idx', h => by
    rw [dirtreeTag] at h
    obtain ⟨-, rfl⟩ := Prod.mk.inj (Option.some.inj h)
    simp [filesOfContents]

theorem dirtreeTags_files : (ns : List Xml) → {root : Bool} → {t t' : DirTags} → {idx idx' : XmlIndex.Index} →
    dirtreeTags c version ns root t idx = some (t', idx') →
      (AllPlaced idx'.files ↔ AllPlaced idx.files ∧ ∀ f ∈ filesBelow ns, FileInRange version f)
  | [], root, t, t', idx, idx', h => by
    rw [dirtreeTags] at h
    obtain ⟨-, rfl⟩ := Prod.mk.inj (Option.some.inj h)
    simp [filesBelow]
  | n :: rest, root, t, t', idx, idx', h => by
    rw [dirtreeTags, Option.bind_eq_bind, Option.bind_eq_some_iff] at h
    obtain ⟨⟨t₁, idx₁⟩, h₁, h⟩ := h
    rw [dirtreeTags_files rest h, dirtreeTag_files n h₁, filesBelow, List.forall_mem_append, and_assoc]

theorem dirContentsTag_files : (n : Xml) → {idx idx' : XmlIndex.Index} →
    dirContentsTag c version n idx = some idx' →
      (AllPlaced idx'.files ↔ AllPlaced idx.files ∧ ∀ f ∈ filesOfEntry n, FileInRange version f)
  | .element tag children, idx, idx', h => by
    rw [dirContentsTag] at h
    rw [filesOfEntry]
    split_ifs at h ⊢ with hfile hdir
    · rw [xmlParseFile_files h, List.forall_mem_singleton]
    · simp only [Option.bind_eq_bind, Option.bind_eq_some_iff] at h
      obtain ⟨⟨t₁, idx₁⟩, h₁, h⟩ := h
      rw [dirEnd_files h, dirtreeTags_files children h₁]
    · obtain rfl := Option.some.inj h
      simp
  | .empty tag, idx, idx', h => by
    rw [dirContentsTag] at h
    split_ifs at h
    obtain rfl := Option.some.inj h
    simp [filesOfEntry]
  | .text v, idx, idx', h => by
    rw [dirContentsTag] at h
    obtain rfl := Option.some.inj h
    simp [filesOfEntry]
  | .other, idx, idx', h => by
    rw [dirContentsTag] at h
    obtain rfl := Option.some.inj h
    simp [filesOfEntry]

theorem dirContentsTags_files : (ns : List Xml) → {idx idx' : XmlIndex.Index} →
    dirContentsTags c version ns idx = some idx' →
      (AllPlaced idx'.files ↔ AllPlaced idx.files ∧ ∀ f ∈ filesIn ns, FileInRange version f)
  | [], idx, idx', h => by
    rw [dirContentsTags] at h
    obtain rfl := Option.some.inj h
    simp [filesIn]
  | n :: rest, idx, idx', h => by
    rw [dirContentsTags, Option.bind_eq_bind, Option.bind_eq_some_iff] at h
    obtain ⟨idx₁, h₁, h⟩ := h
    rw [dirContentsTags_files rest h, dirContentsTag_files n h₁, filesIn, List.forall_mem_append, and_assoc]

end

theorem xmlParseDirtree_files (h : xmlParseDirtree c version root children idx = some idx') :
    AllPlaced idx'.files ↔ AllPlaced idx.files ∧ ∀ f ∈ filesBelow children, FileInRange version f := by
  simp only [xmlParseDirtree, Option.bind_eq_bind, Option.bind_eq_some_iff] at h
  obtain ⟨⟨t, idx₁⟩, h₁, h⟩ := h
  rw [dirEnd_files h, dirtreeTags_files children h₁]

/-- A tag of the index other than `directory` leaves the files alone. -/
theorem schemaTag_cases {t t' : SchemaTags} (h : schemaTag c version t n = some t') :
    (∃ children, n = .element .directory children ∧
      xmlParseDirtree c version true children t.idx = some t'.idx) ∨
      (bodies .directory [n] = [] ∧ t'.idx.files = t.idx.files) := by
  rw [schemaTag] at h
  split at h
  case h_1 | h_2 | h_3 | h_5 =>
    simp only [Option.bind_eq_bind, Option.bind_eq_some_iff] at h
    obtain ⟨seen, -, v, -, h⟩ := h
    obtain rfl := Option.some.inj h
    exact .inr ⟨bodies_of_tag (by simp [*]), rfl⟩
  case h_4 | h_6 =>
    obtain ⟨seen, -, h⟩ := Option.bind_eq_some_iff.1 h
    obtain rfl := Option.some.inj h
    exact .inr ⟨bodies_of_tag (by simp [*]), rfl⟩
  case h_7 =>
    split_ifs at h
    · simp only [Option.bind_eq_bind, Option.bind_eq_some_iff] at h
      obtain ⟨seen, -, v, -, h⟩ := h
      obtain rfl := Option.some.inj h
      exact .inr ⟨bodies_of_tag (by simp [*]), rfl⟩
    · obtain rfl := Option.some.inj h
      exact .inr ⟨bodies_of_tag (by simp [*]), rfl⟩
  case h_8 | h_9 | h_10 =>
    simp only [Option.bind_eq_bind, Option.bind_eq_some_iff] at h
    obtain ⟨seen, -, children, -, v, -, h⟩ := h
    obtain rfl := Option.some.inj h
    exact .inr ⟨bodies_of_tag (by simp [*]), rfl⟩
  case h_11 hn =>
    simp only [Option.bind_eq_bind, Option.bind_eq_some_iff] at h
    obtain ⟨seen, -, children, hbody, idx₁, h₁, h⟩ := h
    obtain rfl := Option.some.inj h
    cases n with
    | element tag children' =>
      obtain rfl : tag = .directory := Option.some.inj hn
      obtain rfl := Option.some.inj hbody
      exact .inl ⟨children', rfl, h₁⟩
    | empty tag => cases hbody
    | text v => cases hbody
    | other => cases hbody
  case h_12 hn =>
    obtain rfl := Option.some.inj h
    exact .inr ⟨bodies_of_tag hn, rfl⟩

theorem schemaTags_files {t t' : SchemaTags} (h : ns.foldlM (schemaTag c version) t = some t') :
    AllPlaced t'.idx.files ↔ AllPlaced t.idx.files ∧
      ∀ f ∈ (bodies .directory ns).flatMap filesBelow, FileInRange version f := by
  induction ns generalizing t with
  | nil =>
    obtain rfl : t = t' := Option.some.inj h
    simp [bodies]
  | cons n ns ih =>
    rw [List.foldlM_cons, Option.bind_eq_bind, Option.bind_eq_some_iff] at h
    obtain ⟨u, hu, hns⟩ := h
    rw [ih hns, bodies_cons _ n ns, List.flatMap_append, List.forall_mem_append, ← and_assoc]
    rcases schemaTag_cases hu with ⟨children, rfl, hdir⟩ | ⟨hn, hfiles⟩
    · rw [xmlParseDirtree_files hdir]
      simp [bodies]
    · rw [hfiles, hn]
      simp

/-- In every index document that the parser accepts, the extents of every file are sorted, disjoint and within
its length exactly if no extent of the document ends at or beyond `2 ^ 64`. -/
theorem allPlaced_iff (c : Checks) (doc : XmlIndex.Document) (idx : XmlIndex.Index)
    (h : xmlParseSchema c doc = .ok idx) : AllPlaced idx.files ↔ InRange doc := by
  rw [xmlParseSchema] at h
  split_ifs at h
  split at h
  · cases h
  · next idx₁ hidx =>
    split_ifs at h
    obtain rfl := Except.ok.inj h
    simp only [schemaIndex, Option.bind_eq_bind, Option.bind_eq_some_iff] at hidx
    obtain ⟨t, ht, seen, -, u, -, hidx⟩ := hidx
    obtain rfl := Option.some.inj hidx
    rw [schemaTags_files ht, InRange, Document.files]
    simp [AllPlaced]

def leaf (t : Tag) (v : List Char) : Xml := .element t [.text v]

def extentElement (x : List Char × List Char) : Xml :=
  .element .extent [leaf .fileoffset x.1, leaf .partition ['b'], leaf .startblock ['5'], leaf .byteoffset ['0'],
    leaf .bytecount x.2]

def time : List Char :=
  ['2', '0', '1', '5', '-', '0', '1', '-', '0', '1', 'T', '0', '0', ':', '0', '0', ':', '0', '0', '.'] ++
    List.replicate 9 '0' ++ ['Z']

def uuid : List Char :=
  List.replicate 8 'a' ++ ['-'] ++ List.replicate 4 'b' ++ ['-'] ++ List.replicate 4 'c' ++ ['-'] ++
    List.replicate 4 'd' ++ ['-'] ++ List.replicate 12 'e'

def times : List Xml :=
  [leaf .creationtime time, leaf .changetime time, leaf .modifytime time, leaf .accesstime time,
    leaf .backuptime time]

def fileElement (length : List Char) (extents : List (List Char × List Char)) : Xml :=
  .element .file ([leaf .name ['a'], leaf .length length, leaf .readonly ['0'], leaf .fileuid ['2']] ++ times ++
    [.element .extentinfo (extents.map extentElement)])

def position (t : Tag) (p b : Char) : Xml := .element t [leaf .partition [p], leaf .startblock [b]]

/-- An index of version 2.2.0 with one file, which has the given length and the given offsets and byte counts. -/
def oneFile (length : List Char) (extents : List (List Char × List Char)) : XmlIndex.Document where
  version := makeLtfsVersion 2 2 0
  children := [leaf .creator ['m'], leaf .volumeuuid uuid,
    leaf .generationnumber ['3'], leaf .updatetime time, position .location 'a' '5',
    position .previousgenerationlocation 'b' '8', leaf .allowpolicyupdate ['0'], leaf .highestfileuid ['2'],
    .element .directory ([.empty .name, leaf .readonly ['0'], leaf .fileuid ['1']] ++ times ++
      [.element .contents [fileElement length extents]])]

def checks : Checks := ⟨fun _ _ => true, fun _ _ => true, fun _ => true, none⟩


def extentOf (fileoffset bytecount : Nat) : ExtentInfo := ⟨⟨5, 'b'⟩, 0, bytecount, fileoffset⟩

/-- Two extents in the wrong order, with a gap between them. -/
def reordered : XmlIndex.Document := oneFile ['2', '0'] [(['1', '0'], ['5']), (['0'], ['5'])]

def reorderedFile : File := ⟨20, 2, none, 10, 0, [extentOf 0 5, extentOf 10 5]⟩

theorem allPlaced_iff_reordered : InRange reordered ∧ AllPlaced [reorderedFile] :=
  ⟨by decide, (allPlaced_iff checks reordered ⟨2, 0, [reorderedFile]⟩ (by decide)).2 (by decide)⟩

/-- The second extent starts five bytes below `2 ^ 64`, and its end wraps round to 5. -/
def wrapping : XmlIndex.Document :=
  oneFile ['1', '0'] [(['0'], ['1', '0']),
    (['1', '8', '4', '4', '6', '7', '4', '4', '0', '7', '3', '7', '0', '9', '5', '5', '1', '6', '1', '1'], ['1', '0'])]

def wrapped : File := ⟨10, 2, none, 20, 0, [extentOf 0 10, extentOf (2 ^ 64 - 5) 10]⟩

theorem wrapping_accepted : xmlParseSchema checks wrapping = .ok ⟨2, 0, [wrapped]⟩ ∧ ¬ AllPlaced [wrapped] := by
  refine ⟨by decide, fun h => ?_⟩
  have hend := (h wrapped List.mem_cons_self).within (extentOf (2 ^ 64 - 5) 10) (by simp [wrapped])
  exact absurd hend (by decide)

end Ltfs.XmlSpec
