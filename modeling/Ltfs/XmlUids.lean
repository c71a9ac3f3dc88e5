import Ltfs.Lib.Labels
import Ltfs.XmlSpec

namespace Ltfs.XmlUids

open XmlReader XmlIndex XmlSpec Lib.Labels

section Entries

variable (c : Checks) (version : Nat)

/-- For older index versions the UIDs of the document's dentries come from `fs_allocate_uid`. -/
def allocates : Bool := decide (version < idxVersionUid)

/-- The dentry of a file, after `_xml_parse_file`. -/
def fileDentry (children : List Xml) (idx : XmlIndex.Index) : List Label :=
  match xmlParseFile c version children idx with
  | none => []
  | some idx' => (idx'.files.drop idx.files.length).map (fun f => ⟨f.uid, allocates version⟩)

/-- The dentry of a directory, after the loop of `_xml_parse_dirtree`. The root has its UID from the document or
from `fs_allocate_dentry`. -/
def dirDentry (root : Bool) (s : DirTags) (idx : XmlIndex.Index) : List Label :=
  match oldDiruid version root s idx with
  | none => []
  | some (s, _) => [⟨s.uid, !root && allocates version⟩]

-- The dentries that the document brings into the index, in the order in which they get their UIDs. Each
-- function follows the one of the parser, at the states the parser has there.
mutual

def dirtreeTagDentries : Xml → XmlIndex.Index → List Label
  | .element t children, idx => if t = .contents then dirContentsTagsDentries children idx else []
  | .empty _, _ => []
  | .text _, _ => []
  | .other, _ => []

def dirtreeTagsDentries : List Xml → Bool → DirTags → XmlIndex.Index → List Label
  | [], _, _, _ => []
  | n :: rest, root, s, idx =>
    dirtreeTagDentries n idx ++ match dirtreeTag c version n root s idx with
      | none => []
      | some (s, idx) => dirtreeTagsDentries rest root s idx

def dirContentsTagDentries : Xml → XmlIndex.Index → List Label
  | .element t children, idx =>
    if t = .file then fileDentry c version children idx
    else if t = .directory then
      dirtreeTagsDentries children false ⟨[], 1⟩ idx ++
        match dirtreeTags c version children false ⟨[], 1⟩ idx with
        | none => []
        | some (s, idx) => dirDentry version false s idx
    else []
  | .empty _, _ => []
  | .text _, _ => []
  | .other, _ => []

def dirContentsTagsDentries : List Xml → XmlIndex.Index → List Label
  | [], _ => []
  | n :: rest, idx =>
    dirContentsTagDentries n idx ++ match dirContentsTag c version n idx with
      | none => []
      | some idx => dirContentsTagsDentries rest idx

end

/-- `_xml_parse_dirtree` of the root. -/
def rootDentries (children : List Xml) (idx : XmlIndex.Index) : List Label :=
  dirtreeTagsDentries c version children true ⟨[], 1⟩ idx ++
    match dirtreeTags c version children true ⟨[], 1⟩ idx with
    | none => []
    | some (s, idx) => dirDentry version true s idx

def schemaTagDentries (s : SchemaTags) : Xml → List Label
  | .element t children => if t = .directory then rootDentries c version children s.idx else []
  | .empty _ => []
  | .text _ => []
  | .other => []

def schemaTagsDentries : SchemaTags → List Xml → List Label
  | _, [] => []
  | s, n :: rest =>
    schemaTagDentries c version s n ++ match schemaTag c version s n with
      | none => []
      | some s => schemaTagsDentries s rest

/-- The dentries of a document. -/
def documentDentries (doc : Document) : List Label :=
  schemaTagsDentries c doc.version ⟨[], ⟨1, 0, []⟩⟩ doc.children

end Entries

variable {c : Checks} {version : Nat} {n : Xml} {ns children : List Xml} {root : Bool}
  {s s' : FileTags} {t t' : DirTags} {idx idx' : XmlIndex.Index}

/-- How a tag moves the counter and the UID of the dentry it belongs to. -/
structure Follows (version uidNumber uid uidNumber' uid' : Nat) : Prop where
  le : uidNumber ≤ uidNumber'
  lt : uidNumber < 2 ^ 64 → uidNumber' < 2 ^ 64
  bound : uid ≤ uidNumber → uid' ≤ uidNumber'
  old : version < idxVersionUid → uidNumber' = uidNumber

theorem follows_refl (version uidNumber uid : Nat) : Follows version uidNumber uid uidNumber uid :=
  ⟨le_refl _, id, id, fun _ => rfl⟩

theorem Follows.trans {k₁ u₁ k₂ u₂ k₃ u₃ : Nat} (h : Follows version k₁ u₁ k₂ u₂) (h' : Follows version k₂ u₂ k₃ u₃) :
    Follows version k₁ u₁ k₃ u₃ :=
  ⟨h.le.trans h'.le, h'.lt ∘ h.lt, h'.bound ∘ h.bound, fun hv => (h'.old hv).trans (h.old hv)⟩

/-- An explicit UID. -/
theorem follows_max {k uid uid' : Nat} (hnew : idxVersionUid ≤ version) (hlt : uid' < 2 ^ 64) :
    Follows version k uid (max k uid') uid' :=
  ⟨le_max_left _ _, fun hk => max_lt hk hlt, fun _ => le_max_right _ _, fun hold => absurd hnew (by omega)⟩

theorem xmlParseOneExtent_uid {d d' : File} (h : xmlParseOneExtent c version d children = some d') :
    d'.uid = d.uid := by
  simp only [xmlParseOneExtent, Option.bind_eq_bind, Option.bind_eq_some_iff] at h
  obtain ⟨s, -, s₁, -, u, -, extentlist, -, h⟩ := h
  rw [← Option.some.inj h]

theorem extentsTag_uid {d d' : File} (h : extentsTag c version d n = some d') : d'.uid = d.uid := by
  cases n with
  | element t children =>
    rw [extentsTag] at h
    split_ifs at h
    · exact xmlParseOneExtent_uid h
    · rw [Option.some.inj h]
  | empty t =>
    rw [extentsTag] at h
    split_ifs at h
    rw [Option.some.inj h]
  | text v => rw [Option.some.inj h]
  | other => rw [Option.some.inj h]

theorem xmlParseExtents_uid {d d' : File} (h : xmlParseExtents c version d ns = some d') : d'.uid = d.uid := by
  rw [xmlParseExtents] at h
  induction ns generalizing d with
  | nil => rw [Option.some.inj h]
  | cons n ns ih =>
    rw [List.foldlM_cons, Option.bind_eq_bind, Option.bind_eq_some_iff] at h
    obtain ⟨d₁, h₁, h⟩ := h
    rw [ih h, extentsTag_uid h₁]

theorem fileTag_uid (h : fileTag c version s n = some s') :
    Follows version s.uidNumber s.file.uid s'.uidNumber s'.file.uid := by
  rw [fileTag] at h
  split at h
  case h_9 =>
    simp only [Option.bind_eq_bind, Option.bind_eq_some_iff] at h
    obtain ⟨seen, -, h⟩ := h
    split at h
    · obtain ⟨file, hfile, h⟩ := Option.bind_eq_some_iff.1 h
      obtain rfl := Option.some.inj h
      show Follows version s.uidNumber s.file.uid s.uidNumber file.uid
      rw [xmlParseExtents_uid hfile]
      exact follows_refl _ _ _
    · obtain rfl := Option.some.inj h
      exact follows_refl _ _ _
  case h_11 =>
    split_ifs at h with hnew
    · simp only [Option.bind_eq_bind, Option.bind_eq_some_iff] at h
      obtain ⟨seen, -, uid, huid, h⟩ := h
      obtain rfl := Option.some.inj h
      exact follows_max hnew (textTag_lt huid)
    · obtain rfl := Option.some.inj h
      exact follows_refl _ _ _
  case h_12 =>
    split_ifs at h
    · obtain ⟨seen, -, h⟩ := Option.bind_eq_some_iff.1 h
      obtain rfl := Option.some.inj h
      exact follows_refl _ _ _
    · obtain rfl := Option.some.inj h
      exact follows_refl _ _ _
  case h_13 =>
    obtain rfl := Option.some.inj h
    exact follows_refl _ _ _
  all_goals
    simp only [Option.bind_eq_bind, Option.bind_eq_some_iff] at h
    grind [follows_refl]

theorem fileTags_uid (h : ns.foldlM (fileTag c version) s = some s') :
    Follows version s.uidNumber s.file.uid s'.uidNumber s'.file.uid := by
  induction ns generalizing s with
  | nil =>
    obtain rfl : s = s' := Option.some.inj h
    exact follows_refl _ _ _
  | cons n ns ih =>
    rw [List.foldlM_cons, Option.bind_eq_bind, Option.bind_eq_some_iff] at h
    obtain ⟨s₁, h₁, h⟩ := h
    exact (fileTag_uid h₁).trans (ih h)

/-- A UID that `fs_allocate_uid` gives while the counter has not wrapped is the next number. -/
theorem fsAllocateUid_eq {k : Nat} (hpos : 1 ≤ k) (hne : (fsAllocateUid k).1 ≠ 0) (hlt : k < 2 ^ 64) :
    fsAllocateUid k = (k + 1, k + 1) ∧ k + 1 < 2 ^ 64 := by
  rw [fsAllocateUid, if_neg (by omega)] at hne ⊢
  have hroom : k + 1 < 2 ^ 64 := by
    by_contra hfull
    have hwrap : k + 1 = 2 ^ 64 := by omega
    rw [hwrap] at hne
    exact hne rfl
  rw [wrap_of_lt hroom]
  exact ⟨rfl, hroom⟩

theorem grows_dentry {k k' uid : Nat} (hle : k ≤ k') (huid : uid ≤ k') (hold : version < idxVersionUid → k < uid) :
    Grows (allocates version) k k' [⟨uid, allocates version⟩] :=
  grows_singleton (l := ⟨uid, allocates version⟩) hle huid (fun h => hold (of_decide_eq_true h))

/-- A new UID for a dentry of an older index. -/
theorem grows_allocated {k : Nat} (hpos : 1 ≤ k) (hlt : k < 2 ^ 64) (hne : (fsAllocateUid k).1 ≠ 0) :
    max (fsAllocateUid k).2 (fsAllocateUid k).1 < 2 ^ 64 ∧
      Grows (allocates version) k (max (fsAllocateUid k).2 (fsAllocateUid k).1)
        [⟨(fsAllocateUid k).1, allocates version⟩] := by
  obtain ⟨heq, hroom⟩ := fsAllocateUid_eq hpos hne hlt
  simp only [heq, max_self]
  exact ⟨hroom, grows_dentry (Nat.le_succ k) (le_refl _) (fun _ => Nat.lt_succ_self k)⟩

theorem fileDentry_grows (h : xmlParseFile c version children idx = some idx') (hpos : 1 ≤ idx.uidNumber)
    (hlt : idx.uidNumber < 2 ^ 64) :
    idx'.uidNumber < 2 ^ 64 ∧
      Grows (allocates version) idx.uidNumber idx'.uidNumber (fileDentry c version children idx) := by
  have hparse := h
  simp only [xmlParseFile, fileEnd, Option.bind_eq_bind, Option.bind_eq_some_iff] at h
  obtain ⟨s, hs, s₁, hs₁, seen, -, u, -, u₁, -, u₂, huid, h⟩ := h
  have hfollows := fileTags_uid hs
  have hne : s₁.file.uid ≠ 0 := by simpa using accept_eq_some huid
  obtain rfl := Option.some.inj h
  have hone : fileDentry c version children idx = [⟨s₁.file.uid, allocates version⟩] := by
    simp [fileDentry, hparse]
  rw [hone]
  rw [oldFileuid] at hs₁
  split_ifs at hs₁ with hold
  · obtain ⟨seen₁, -, hs₁⟩ := Option.bind_eq_some_iff.1 hs₁
    obtain rfl := Option.some.inj hs₁
    have hk := hfollows.old hold
    simp only at hk hne ⊢
    rw [hk] at hne ⊢
    exact grows_allocated hpos hlt hne
  · obtain rfl := Option.some.inj hs₁
    exact ⟨hfollows.lt hlt, grows_dentry hfollows.le (hfollows.bound hpos) (fun h => absurd h hold)⟩

theorem dirTag_uid (h : dirTag c version root t idx n = some (t', idx')) :
    Follows version idx.uidNumber t.uid idx'.uidNumber t'.uid := by
  rw [dirTag] at h
  split at h
  case h_9 =>
    split_ifs at h with hnew
    · simp only [Option.bind_eq_bind, Option.bind_eq_some_iff] at h
      obtain ⟨seen, -, uid, huid, h⟩ := h
      obtain ⟨rfl, rfl⟩ := Prod.mk.inj (Option.some.inj h)
      exact follows_max hnew (textTag_lt huid)
    · obtain ⟨rfl, rfl⟩ := Prod.mk.inj (Option.some.inj h)
      exact follows_refl _ _ _
  case h_10 =>
    split_ifs at h
    · obtain ⟨seen, -, h⟩ := Option.bind_eq_some_iff.1 h
      obtain ⟨rfl, rfl⟩ := Prod.mk.inj (Option.some.inj h)
      exact follows_refl _ _ _
    · obtain ⟨rfl, rfl⟩ := Prod.mk.inj (Option.some.inj h)
      exact follows_refl _ _ _
  case h_11 =>
    obtain ⟨rfl, rfl⟩ := Prod.mk.inj (Option.some.inj h)
    exact follows_refl _ _ _
  all_goals
    simp only [Option.bind_eq_bind, Option.bind_eq_some_iff] at h
    grind [follows_refl]

/-- A directory below the root. -/
theorem dirDentry_grows (h : dirEnd version false t idx = some idx') (hpos : 1 ≤ idx.uidNumber)
    (hlt : idx.uidNumber < 2 ^ 64) (ht : t.uid ≤ idx.uidNumber) :
    idx'.uidNumber < 2 ^ 64 ∧
      Grows (allocates version) idx.uidNumber idx'.uidNumber (dirDentry version false t idx) := by
  simp only [dirEnd, Option.bind_eq_bind, Option.bind_eq_some_iff] at h
  obtain ⟨⟨t₁, idx₁⟩, h₁, seen, -, u, -, u₁, huid, h⟩ := h
  obtain rfl := Option.some.inj h
  have hne : t₁.uid ≠ 0 := by
    have := accept_eq_some huid
    simp_all
  have hone : dirDentry version false t idx = [⟨t₁.uid, allocates version⟩] := by
    simp [dirDentry, h₁]
  rw [hone]
  simp only [oldDiruid, Bool.false_eq_true, if_false] at h₁
  split_ifs at h₁ with hold
  · obtain ⟨seen₁, -, h₁⟩ := Option.bind_eq_some_iff.1 h₁
    obtain ⟨rfl, rfl⟩ := Prod.mk.inj (Option.some.inj h₁)
    exact grows_allocated hpos hlt hne
  · obtain ⟨rfl, rfl⟩ := Prod.mk.inj (Option.some.inj h₁)
    exact ⟨hlt, grows_dentry (le_refl _) ht (fun h => absurd h hold)⟩

/-- A part of the document moves the counter from `k` to `k'` and brings dentries into the index. -/
def Reads (version k k' : Nat) (ls : List Label) : Prop :=
  1 ≤ k → k < 2 ^ 64 → k' < 2 ^ 64 ∧ Grows (allocates version) k k' ls

theorem reads_nil (version k : Nat) : Reads version k k [] :=
  fun _ hlt => ⟨hlt, grows_nil _ (le_refl k)⟩

theorem Reads.append {k₁ k₂ k₃ : Nat} {ls ls' : List Label} (h : Reads version k₁ k₂ ls)
    (h' : Reads version k₂ k₃ ls') : Reads version k₁ k₃ (ls ++ ls') := by
  intro hpos hlt
  obtain ⟨hlt₂, hgrows⟩ := h hpos hlt
  obtain ⟨hlt₃, hgrows'⟩ := h' (hpos.trans hgrows.le) hlt₂
  exact ⟨hlt₃, hgrows.append hgrows'⟩

theorem Follows.reads {k u k' u' : Nat} (h : Follows version k u k' u') : Reads version k k' [] :=
  fun _ hlt => ⟨h.lt hlt, grows_nil _ h.le⟩

/-- Among the tags of a directory, its own UID stays below the counter. -/
def ReadsDir (version : Nat) (t t' : DirTags) (idx idx' : XmlIndex.Index) (ls : List Label) : Prop :=
  Reads version idx.uidNumber idx'.uidNumber ls ∧
    (1 ≤ idx.uidNumber → idx.uidNumber < 2 ^ 64 → t.uid ≤ idx.uidNumber → t'.uid ≤ idx'.uidNumber)

theorem readsDir_refl (version : Nat) (t : DirTags) (idx : XmlIndex.Index) : ReadsDir version t t idx idx [] :=
  ⟨reads_nil _ _, fun _ _ ht => ht⟩

theorem Follows.readsDir (h : Follows version idx.uidNumber t.uid idx'.uidNumber t'.uid) :
    ReadsDir version t t' idx idx' [] :=
  ⟨h.reads, fun _ _ ht => h.bound ht⟩

-- Over the tree, each loop keeps the counter above the dentries it has passed.
mutual

theorem dirtreeTag_reads : (n : Xml) → {root : Bool} → {t t' : DirTags} → {idx idx' : XmlIndex.Index} →
    dirtreeTag c version n root t idx = some (t', idx') →
      ReadsDir version t t' idx idx' (dirtreeTagDentries c version n idx)
  | .element tag children, root, t, t', idx, idx', h => by
    rw [dirtreeTag] at h
    rw [dirtreeTagDentries]
    split_ifs at h ⊢ with htag
    · simp only [Option.bind_eq_bind, Option.bind_eq_some_iff] at h
      obtain ⟨seen, -, idx₁, h₁, u, -, h⟩ := h
      obtain ⟨rfl, rfl⟩ := Prod.mk.inj (Option.some.inj h)
      have hreads := dirContentsTags_reads children h₁
      exact ⟨hreads, fun hpos hlt ht => ht.trans (hreads hpos hlt).2.le⟩
    · exact (dirTag_uid h).readsDir
  | .empty tag, root, t, t', idx, idx', h => by
    rw [dirtreeTag] at h
    rw [dirtreeTagDentries]
    exact (dirTag_uid h).readsDir
  | .text v, root, t, t', idx, idx', h => by
    rw [dirtreeTag] at h
    obtain ⟨rfl, rfl⟩ := Prod.mk.inj (Option.some.inj h)
    rw [dirtreeTagDentries]
    exact readsDir_refl _ _ _
  | .other, root, t, t', idx, idx', h => by
    rw [dirtreeTag] at h
    obtain ⟨rfl, rfl⟩ := Prod.mk.inj (Option.some.inj h)
    rw [dirtreeTagDentries]
    exact readsDir_refl _ _ _

theorem dirtreeTags_reads : (ns : List Xml) → {root : Bool} → {t t' : DirTags} → {idx idx' : XmlIndex.Index} →
    dirtreeTags c version ns root t idx = some (t', idx') →
      ReadsDir version t t' idx idx' (dirtreeTagsDentries c version ns root t idx)
  | [], root, t, t', idx, idx', h => by
    rw [dirtreeTags] at h
    obtain ⟨rfl, rfl⟩ := Prod.mk.inj (Option.some.inj h)
    rw [dirtreeTagsDentries]
    exact readsDir_refl _ _ _
  | n :: rest, root, t, t', idx, idx', h => by
    rw [dirtreeTags, Option.bind_eq_bind, Option.bind_eq_some_iff] at h
    obtain ⟨⟨t₁, idx₁⟩, h₁, h⟩ := h
    rw [dirtreeTagsDentries, h₁]
    obtain ⟨hreads, hbound⟩ := dirtreeTag_reads n h₁
    obtain ⟨hreads', hbound'⟩ := dirtreeTags_reads rest h
    refine ⟨hreads.append hreads', fun hpos hlt ht => ?_⟩
    obtain ⟨hlt₁, hgrows⟩ := hreads hpos hlt
    exact hbound' (hpos.trans hgrows.le) hlt₁ (hbound hpos hlt ht)

theorem dirContentsTag_reads : (n : Xml) → {idx idx' : XmlIndex.Index} →
    dirContentsTag c version n idx = some idx' →
      Reads version idx.uidNumber idx'.uidNumber (dirContentsTagDentries c version n idx)
  | .element tag children, idx, idx', h => by
    rw [dirContentsTag] at h
    rw [dirContentsTagDentries]
    split_ifs at h ⊢ with hfile hdir
    · exact fileDentry_grows h
    · simp only [Option.bind_eq_bind, Option.bind_eq_some_iff] at h
      obtain ⟨⟨t₁, idx₁⟩, h₁, h⟩ := h
      rw [h₁]
      obtain ⟨hreads, hbound⟩ := dirtreeTags_reads children h₁
      intro hpos hlt
      have hone := hbound hpos hlt hpos
      refine hreads.append (fun hpos₁ hlt₁ => ?_) hpos hlt
      exact dirDentry_grows h hpos₁ hlt₁ hone
    · obtain rfl := Option.some.inj h
      exact reads_nil _ _
  | .empty tag, idx, idx', h => by
    rw [dirContentsTag] at h
    split_ifs at h
    obtain rfl := Option.some.inj h
    rw [dirContentsTagDentries]
    exact reads_nil _ _
  | .text v, idx, idx', h => by
    rw [dirContentsTag] at h
    obtain rfl := Option.some.inj h
    rw [dirContentsTagDentries]
    exact reads_nil _ _
  | .other, idx, idx', h => by
    rw [dirContentsTag] at h
    obtain rfl := Option.some.inj h
    rw [dirContentsTagDentries]
    exact reads_nil _ _

theorem dirContentsTags_reads : (ns : List Xml) → {idx idx' : XmlIndex.Index} →
    dirContentsTags c version ns idx = some idx' →
      Reads version idx.uidNumber idx'.uidNumber (dirContentsTagsDentries c version ns idx)
  | [], idx, idx', h => by
    rw [dirContentsTags] at h
    obtain rfl := Option.some.inj h
    rw [dirContentsTagsDentries]
    exact reads_nil _ _
  | n :: rest, idx, idx', h => by
    rw [dirContentsTags, Option.bind_eq_bind, Option.bind_eq_some_iff] at h
    obtain ⟨idx₁, h₁, h⟩ := h
    rw [dirContentsTagsDentries, h₁]
    exact (dirContentsTag_reads n h₁).append (dirContentsTags_reads rest h)

end

/-- The counter is above all the dentries, and those that got their UID from it have it alone. -/
structure Covers (k : Nat) (ls : List Label) : Prop where
  bound : ∀ l ∈ ls, l.value ≤ k
  apart : ls.Pairwise Apart

theorem covers_nil (k : Nat) : Covers k [] :=
  ⟨by simp, List.Pairwise.nil⟩

theorem Covers.mono {k k' : Nat} {ls : List Label} (h : Covers k ls) (hle : k ≤ k') : Covers k' ls :=
  ⟨fun l hl => (h.bound l hl).trans hle, h.apart⟩

theorem rootDentries_covers (h : xmlParseDirtree c version true children idx = some idx') (hpos : 1 ≤ idx.uidNumber)
    (hlt : idx.uidNumber < 2 ^ 64) :
    idx.uidNumber ≤ idx'.uidNumber ∧ idx'.uidNumber < 2 ^ 64 ∧
      Covers idx'.uidNumber (rootDentries c version children idx) := by
  simp only [xmlParseDirtree, dirEnd, Option.bind_eq_bind, Option.bind_eq_some_iff] at h
  obtain ⟨⟨t, idx₁⟩, h₁, ⟨t₁, idx₂⟩, h₂, seen, -, u, -, u₁, huid, h⟩ := h
  obtain ⟨hlt₁, hgrows⟩ := (dirtreeTags_reads children h₁).1 hpos hlt
  obtain rfl := Option.some.inj h
  have huid : t₁.uid = 1 := by simpa using accept_eq_some huid
  have hidx : idx₂ = idx₁ := by
    simp only [oldDiruid, if_true] at h₂
    split_ifs at h₂
    · obtain ⟨seen₁, -, h₂⟩ := Option.bind_eq_some_iff.1 h₂
      exact (Prod.mk.inj (Option.some.inj h₂)).2.symm
    · exact (Prod.mk.inj (Option.some.inj h₂)).2.symm
  have hroot : rootDentries c version children idx =
      dirtreeTagsDentries c version children true ⟨[], 1⟩ idx ++ [⟨1, false⟩] := by
    simp [rootDentries, h₁, dirDentry, h₂, huid]
  show idx.uidNumber ≤ idx₂.uidNumber ∧ idx₂.uidNumber < 2 ^ 64 ∧ _
  rw [hidx, hroot]
  refine ⟨hgrows.le, hlt₁, ?_, ?_⟩
  · rw [List.forall_mem_append, List.forall_mem_singleton]
    exact ⟨hgrows.bound, hpos.trans hgrows.le⟩
  · rw [List.pairwise_append]
    refine ⟨hgrows.apart, List.pairwise_singleton _ _, fun a ha b hb hab => ?_⟩
    obtain rfl := List.mem_singleton.1 hb
    have hissued : a.issued = true := by simpa using hab
    have habove := hgrows.above a ha hissued
    show a.value ≠ 1
    omega

variable {r r' : SchemaTags}

/-- The directory tree is read once; the other tags of the index bring no dentry. -/
theorem schemaTag_dentries (h : schemaTag c version r n = some r') :
    (∃ children, n = .element .directory children ∧ .directory ∉ r.seen ∧ .directory ∈ r'.seen ∧
      xmlParseDirtree c version true children r.idx = some r'.idx) ∨
    (n.tag? ≠ some .directory ∧ (.directory ∈ r.seen → .directory ∈ r'.seen) ∧
      r.idx.uidNumber ≤ r'.idx.uidNumber ∧ (r.idx.uidNumber < 2 ^ 64 → r'.idx.uidNumber < 2 ^ 64)) := by
  rw [schemaTag] at h
  split at h
  case h_7 htag =>
    split_ifs at h
    · simp only [Option.bind_eq_bind, Option.bind_eq_some_iff, checkTag_eq_some] at h
      obtain ⟨seen, ⟨-, rfl⟩, uid, huid, h⟩ := h
      obtain rfl := Option.some.inj h
      exact .inr ⟨by simp [htag], List.mem_cons_of_mem _, le_max_left _ _, fun hk => max_lt hk (textTag_lt huid)⟩
    · obtain rfl := Option.some.inj h
      exact .inr ⟨by simp [htag], id, le_refl _, id⟩
  case h_11 htag =>
    simp only [Option.bind_eq_bind, Option.bind_eq_some_iff, checkTag_eq_some] at h
    obtain ⟨seen, ⟨hnew, rfl⟩, children, hbody, idx₁, h₁, h⟩ := h
    obtain rfl := Option.some.inj h
    cases n with
    | element tag children' =>
      obtain rfl : tag = .directory := Option.some.inj htag
      obtain rfl := Option.some.inj hbody
      exact .inl ⟨children', rfl, hnew, List.mem_cons_self, h₁⟩
    | empty tag => cases hbody
    | text v => cases hbody
    | other => cases hbody
  case h_12 htag =>
    obtain rfl := Option.some.inj h
    exact .inr ⟨htag, id, le_refl _, id⟩
  case h_4 htag | h_6 htag =>
    obtain ⟨seen, hseen, h⟩ := Option.bind_eq_some_iff.1 h
    obtain rfl := Option.some.inj h
    obtain rfl := checkedTag_seen hseen
    exact .inr ⟨by simp [htag], List.mem_cons_of_mem _, le_refl _, id⟩
  case h_1 htag | h_2 htag | h_3 htag | h_5 htag =>
    simp only [Option.bind_eq_bind, Option.bind_eq_some_iff, checkTag_eq_some] at h
    obtain ⟨seen, ⟨-, rfl⟩, v, -, h⟩ := h
    obtain rfl := Option.some.inj h
    exact .inr ⟨by simp [htag], List.mem_cons_of_mem _, le_refl _, id⟩
  case h_8 htag | h_9 htag | h_10 htag =>
    simp only [Option.bind_eq_bind, Option.bind_eq_some_iff, checkTag_eq_some] at h
    obtain ⟨seen, ⟨-, rfl⟩, cs, -, v, -, h⟩ := h
    obtain rfl := Option.some.inj h
    exact .inr ⟨by simp [htag], List.mem_cons_of_mem _, le_refl _, id⟩

theorem schemaTagDentries_of_tag (h : n.tag? ≠ some .directory) : schemaTagDentries c version r n = [] := by
  cases n with
  | element tag children =>
    have htag : tag ≠ .directory := fun e => h (congrArg some e)
    simp [schemaTagDentries, htag]
  | empty tag => rfl
  | text v => rfl
  | other => rfl

theorem schemaTags_covers (h : ns.foldlM (schemaTag c version) r = some r') (hpos : 1 ≤ r.idx.uidNumber)
    (hlt : r.idx.uidNumber < 2 ^ 64) :
    r.idx.uidNumber ≤ r'.idx.uidNumber ∧ r'.idx.uidNumber < 2 ^ 64 ∧
      Covers r'.idx.uidNumber (schemaTagsDentries c version r ns) ∧
      (.directory ∈ r.seen → schemaTagsDentries c version r ns = []) := by
  induction ns generalizing r with
  | nil =>
    obtain rfl : r = r' := Option.some.inj h
    exact ⟨le_refl _, hlt, covers_nil _, fun _ => rfl⟩
  | cons n ns ih =>
    rw [List.foldlM_cons, Option.bind_eq_bind, Option.bind_eq_some_iff] at h
    obtain ⟨r₁, h₁, h⟩ := h
    rw [schemaTagsDentries, h₁]
    rcases schemaTag_dentries h₁ with ⟨children, rfl, hnew, hmem, hdir⟩ | ⟨htag, hmem, hle, hlt₁⟩
    · obtain ⟨hle, hlt₁, hcovers⟩ := rootDentries_covers hdir hpos hlt
      obtain ⟨hle', hlt', -, hnone⟩ := ih h (hpos.trans hle) hlt₁
      simp only [hnone hmem, List.append_nil, schemaTagDentries, if_true]
      exact ⟨hle.trans hle', hlt', hcovers.mono hle', fun hold => absurd hold hnew⟩
    · obtain ⟨hle', hlt', hcovers, hnone⟩ := ih h (hpos.trans hle) (hlt₁ hlt)
      rw [schemaTagDentries_of_tag htag, List.nil_append]
      exact ⟨hle.trans hle', hlt', hcovers, fun hold => hnone (hmem hold)⟩

theorem documentDentries_covers {doc : Document} (h : xmlParseSchema c doc = .ok idx) :
    1 ≤ idx.uidNumber ∧ idx.uidNumber < 2 ^ 64 ∧ Covers idx.uidNumber (documentDentries c doc) := by
  rw [xmlParseSchema] at h
  split_ifs at h
  split at h
  · cases h
  · next idx₁ hidx =>
    split_ifs at h
    obtain rfl := Except.ok.inj h
    simp only [schemaIndex, Option.bind_eq_bind, Option.bind_eq_some_iff] at hidx
    obtain ⟨r, hr, seen, -, u, -, hidx⟩ := hidx
    obtain rfl := Option.some.inj hidx
    obtain ⟨hle, hlt, hcovers, -⟩ := schemaTags_covers hr (le_refl 1) (by decide)
    exact ⟨hle, hlt, hcovers⟩

/-- The files that a part of the document adds to the index are among its dentries. -/
def Lists (idx idx' : XmlIndex.Index) (ls : List Label) : Prop :=
  ∀ f ∈ idx'.files, f ∈ idx.files ∨ ∃ l ∈ ls, l.value = f.uid

theorem lists_of_files {ls : List Label} (h : idx'.files = idx.files) : Lists idx idx' ls :=
  fun _ hf => .inl (h ▸ hf)

theorem Lists.append {idx₁ : XmlIndex.Index} {ls ls' : List Label} (h : Lists idx idx₁ ls) (h' : Lists idx₁ idx' ls') :
    Lists idx idx' (ls ++ ls') := by
  intro f hf
  rcases h' f hf with hf₁ | ⟨l, hl, hval⟩
  · rcases h f hf₁ with hf₀ | ⟨l, hl, hval⟩
    · exact .inl hf₀
    · exact .inr ⟨l, List.mem_append_left _ hl, hval⟩
  · exact .inr ⟨l, List.mem_append_right _ hl, hval⟩

theorem fileDentry_lists (h : xmlParseFile c version children idx = some idx') :
    Lists idx idx' (fileDentry c version children idx) := by
  have hparse := h
  simp only [xmlParseFile, Option.bind_eq_bind, Option.bind_eq_some_iff] at h
  obtain ⟨s, -, h⟩ := h
  obtain ⟨f, -, -, -, hfiles⟩ := fileEnd_spec h
  intro g hg
  rw [hfiles, List.mem_append, List.mem_singleton] at hg
  refine hg.imp id (fun hgf => ⟨⟨f.uid, allocates version⟩, ?_, by rw [hgf]⟩)
  simp [fileDentry, hparse, hfiles]

mutual

theorem dirtreeTag_lists : (n : Xml) → {root : Bool} → {t t' : DirTags} → {idx idx' : XmlIndex.Index} →
    dirtreeTag c version n root t idx = some (t', idx') → Lists idx idx' (dirtreeTagDentries c version n idx)
  | .element tag children, root, t, t', idx, idx', h => by
    rw [dirtreeTag] at h
    rw [dirtreeTagDentries]
    split_ifs at h ⊢ with htag
    · simp only [Option.bind_eq_bind, Option.bind_eq_some_iff] at h
      obtain ⟨seen, -, idx₁, h₁, u, -, h⟩ := h
      obtain ⟨-, rfl⟩ := Prod.mk.inj (Option.some.inj h)
      exact dirContentsTags_lists children h₁
    · exact lists_of_files (dirTag_files h)
  | .empty tag, root, t, t', idx, idx', h => by
    rw [dirtreeTag] at h
    exact lists_of_files (dirTag_files h)
  | .text v, root, t, t', idx, idx', h => by
    rw [dirtreeTag] at h
    obtain ⟨-, rfl⟩ := Prod.mk.inj (Option.some.inj h)
    exact lists_of_files rfl
  | .other, root, t, t', idx, idx', h => by
    rw [dirtreeTag] at h
    obtain ⟨-, rfl⟩ := Prod.mk.inj (Option.some.inj h)
    exact lists_of_files rfl

theorem dirtreeTags_lists : (ns : List Xml) → {root : Bool} → {t t' : DirTags} → {idx idx' : XmlIndex.Index} →
    dirtreeTags c version ns root t idx = some (t', idx') →
      Lists idx idx' (dirtreeTagsDentries c version ns root t idx)
  | [], root, t, t', idx, idx', h => by
    rw [dirtreeTags] at h
    obtain ⟨-, rfl⟩ := Prod.mk.inj (Option.some.inj h)
    exact lists_of_files rfl
  | n :: rest, root, t, t', idx, idx', h => by
    rw [dirtreeTags, Option.bind_eq_bind, Option.bind_eq_some_iff] at h
    obtain ⟨⟨t₁, idx₁⟩, h₁, h⟩ := h
    rw [dirtreeTagsDentries, h₁]
    exact (dirtreeTag_lists n h₁).append (dirtreeTags_lists rest h)

theorem dirContentsTag_lists : (n : Xml) → {idx idx' : XmlIndex.Index} →
    dirContentsTag c version n idx = some idx' → Lists idx idx' (dirContentsTagDentries c version n idx)
  | .element tag children, idx, idx', h => by
    rw [dirContentsTag] at h
    rw [dirContentsTagDentries]
    split_ifs at h ⊢ with hfile hdir
    · exact fileDentry_lists h
    · simp only [Option.bind_eq_bind, Option.bind_eq_some_iff] at h
      obtain ⟨⟨t₁, idx₁⟩, h₁, h⟩ := h
      exact (dirtreeTags_lists children h₁).append (lists_of_files (dirEnd_files h))
    · obtain rfl := Option.some.inj h
      exact lists_of_files rfl
  | .empty tag, idx, idx', h => by
    rw [dirContentsTag] at h
    split_ifs at h
    obtain rfl := Option.some.inj h
    exact lists_of_files rfl
  | .text v, idx, idx', h => by
    rw [dirContentsTag] at h
    obtain rfl := Option.some.inj h
    exact lists_of_files rfl
  | .other, idx, idx', h => by
    rw [dirContentsTag] at h
    obtain rfl := Option.some.inj h
    exact lists_of_files rfl

theorem dirContentsTags_lists : (ns : List Xml) → {idx idx' : XmlIndex.Index} →
    dirContentsTags c version ns idx = some idx' → Lists idx idx' (dirContentsTagsDentries c version ns idx)
  | [], idx, idx', h => by
    rw [dirContentsTags] at h
    obtain rfl := Option.some.inj h
    exact lists_of_files rfl
  | n :: rest, idx, idx', h => by
    rw [dirContentsTags, Option.bind_eq_bind, Option.bind_eq_some_iff] at h
    obtain ⟨idx₁, h₁, h⟩ := h
    rw [dirContentsTagsDentries, h₁]
    exact (dirContentsTag_lists n h₁).append (dirContentsTags_lists rest h)

end

theorem schemaTags_lists (h : ns.foldlM (schemaTag c version) r = some r') :
    Lists r.idx r'.idx (schemaTagsDentries c version r ns) := by
  induction ns generalizing r with
  | nil =>
    obtain rfl : r = r' := Option.some.inj h
    exact lists_of_files rfl
  | cons n ns ih =>
    rw [List.foldlM_cons, Option.bind_eq_bind, Option.bind_eq_some_iff] at h
    obtain ⟨r₁, h₁, h⟩ := h
    rw [schemaTagsDentries, h₁]
    refine Lists.append ?_ (ih h)
    rcases schemaTag_cases h₁ with ⟨children, rfl, hdir⟩ | ⟨-, hfiles⟩
    · simp only [xmlParseDirtree, Option.bind_eq_bind, Option.bind_eq_some_iff] at hdir
      obtain ⟨⟨t, idx₁⟩, htags, hend⟩ := hdir
      rw [schemaTagDentries, if_pos rfl, rootDentries, htags]
      exact (dirtreeTags_lists children htags).append (lists_of_files (dirEnd_files hend))
    · exact lists_of_files hfiles

/-- Every file of the index is one of the document's dentries. -/
theorem files_documentDentries {doc : Document} (h : xmlParseSchema c doc = .ok idx) {f : File}
    (hf : f ∈ idx.files) : ∃ l ∈ documentDentries c doc, l.value = f.uid := by
  rw [xmlParseSchema] at h
  split_ifs at h
  split at h
  · cases h
  · next idx₁ hidx =>
    split_ifs at h
    obtain rfl := Except.ok.inj h
    simp only [schemaIndex, Option.bind_eq_bind, Option.bind_eq_some_iff] at hidx
    obtain ⟨r, hr, seen, -, u, -, hidx⟩ := hidx
    obtain rfl := Option.some.inj hidx
    rcases schemaTags_lists hr f hf with hnone | hsome
    · exact absurd hnone (List.not_mem_nil)
    · exact hsome

end Ltfs.XmlUids
