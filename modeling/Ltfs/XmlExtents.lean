import Mathlib
import Ltfs.XmlIndex

namespace Ltfs.XmlExtents

open Format XmlReader XmlIndex

/-- The bodies of the elements of one name among some nodes. -/
def bodies (t : Tag) (ns : List Xml) : List (List Xml) :=
  ns.filterMap (fun n => match n with
    | .element t' children => if t' = t then some children else none
    | _ => none)

/-- The number that the first tag of a name holds. -/
def number (t : Tag) (children : List Xml) : Nat :=
  match children.find? (fun n => n.tag? = some t) with
  | none => 0
  | some n => (textTag n xmlParseUll).getD 0

/-- No extent of an `extentinfo` ends at or beyond `2 ^ 64`. Before index version 2.0.0 the extents follow
one another from offset zero on. -/
def ExtentsInRange (version : Nat) (es : List Xml) : Prop :=
  if version < idxVersionSparse then ((bodies .extent es).map (number .bytecount)).sum < 2 ^ 64
  else ∀ x ∈ bodies .extent es, number .fileoffset x + number .bytecount x < 2 ^ 64

instance (version : Nat) (es : List Xml) : Decidable (ExtentsInRange version es) :=
  inferInstanceAs (Decidable (if version < idxVersionSparse then _ else _))

def FileInRange (version : Nat) (children : List Xml) : Prop :=
  ∀ es ∈ bodies .extentinfo (fileNodes children), ExtentsInRange version es

instance (version : Nat) (children : List Xml) : Decidable (FileInRange version children) :=
  inferInstanceAs (Decidable (∀ es ∈ bodies .extentinfo (fileNodes children), ExtentsInRange version es))

mutual

def filesOfContents : Xml → List (List Xml)
  | .element t children => if t = .contents then filesIn children else []
  | .empty _ => []
  | .text _ => []
  | .other => []

/-- The bodies of the files below a directory. -/
def filesBelow : List Xml → List (List Xml)
  | [] => []
  | n :: rest => filesOfContents n ++ filesBelow rest

def filesOfEntry : Xml → List (List Xml)
  | .element t children => if t = .file then [children] else if t = .directory then filesBelow children else []
  | .empty _ => []
  | .text _ => []
  | .other => []

def filesIn : List Xml → List (List Xml)
  | [] => []
  | n :: rest => filesOfEntry n ++ filesIn rest

end

def Document.files (doc : Document) : List (List Xml) :=
  (bodies .directory doc.children).flatMap filesBelow

/-- No extent of the document ends at or beyond `2 ^ 64`. -/
def InRange (doc : Document) : Prop :=
  ∀ children ∈ Document.files doc, FileInRange doc.version children

instance (doc : Document) : Decidable (InRange doc) :=
  inferInstanceAs (Decidable (∀ children ∈ Document.files doc, FileInRange doc.version children))

def span (x : ExtentInfo) : Set Nat := Set.Ico x.fileoffset (x.fileoffset + x.bytecount)

/-- What an extent list says of a file of some size. -/
structure WellPlaced (size : Nat) (l : List ExtentInfo) : Prop where
  sorted : l.Pairwise (fun a b => a.fileoffset ≤ b.fileoffset)
  disjoint : l.Pairwise (fun a b => Disjoint (span a) (span b))
  within : ∀ x ∈ l, x.fileoffset + x.bytecount ≤ size

def Before (a b : ExtentInfo) : Prop := a.fileoffset + a.bytecount ≤ b.fileoffset

instance : DecidableRel Before := fun a b => inferInstanceAs (Decidable (a.fileoffset + a.bytecount ≤ b.fileoffset))

theorem Before.trans {a b d : ExtentInfo} (h : Before a b) (h' : Before b d) : Before a d := by
  rw [Before] at h h' ⊢
  omega

def NoWrap (x : ExtentInfo) : Prop := x.fileoffset + x.bytecount < 2 ^ 64

/-- Without a wrap the list is in order. -/
def Placed (l : List ExtentInfo) : Prop := (∀ x ∈ l, NoWrap x) → l.Pairwise Before

variable {c : Checks} {version : Nat} {l m : List ExtentInfo} {x : ExtentInfo}

theorem extentEnd_eq (h : NoWrap x) : extentEnd x = x.fileoffset + x.bytecount := wrap_of_lt h

theorem fits_iff {a b : ExtentInfo} (h : NoWrap a) : Fits a b ↔ Before a b := by
  rw [Fits, Before, extentEnd_eq h]

theorem placed_nil : Placed [] := fun _ => List.Pairwise.nil

theorem noWrap_insert (h : Lib.Ordered.insert Fits x l = some m) :
    (∀ y ∈ m, NoWrap y) ↔ NoWrap x ∧ ∀ y ∈ l, NoWrap y := by
  have hmem : ∀ y, y ∈ m ↔ y ∈ x :: l := fun y => (Lib.Ordered.insert_perm h).mem_iff
  simp [hmem]

theorem placed_insert (hl : Placed l) (h : Lib.Ordered.insert Fits x l = some m) : Placed m := by
  intro hm
  obtain ⟨hx, hy⟩ := (noWrap_insert h).1 hm
  have hb : Lib.Ordered.insert Before x l = some m := by
    rw [← h]
    apply Lib.Ordered.insert_congr
    · exact fun y hyl => (fits_iff (hy y hyl)).symm
    · exact fun y _ => (fits_iff hx).symm
  exact Lib.Ordered.insert_pairwise Before.trans (hl hy) hb

theorem disjoint_of_before {a b : ExtentInfo} (h : Before a b) : Disjoint (span a) (span b) := by
  apply Set.disjoint_left.2
  intro k ha hb
  exact absurd ha.2 (Nat.not_lt.2 (Nat.le_trans h hb.1))

/-- Among extents in order the last one reaches furthest. -/
theorem end_le_listEnd (hl : l.Pairwise Before) (hw : ∀ y ∈ l, NoWrap y) (hx : x ∈ l) :
    x.fileoffset + x.bytecount ≤ listEnd l := by
  rcases List.eq_nil_or_concat l with rfl | ⟨k, y, rfl⟩
  · cases hx
  · have hend : listEnd (k ++ [y]) = y.fileoffset + y.bytecount := by
      rw [listEnd, List.getLast?_concat]
      exact extentEnd_eq (hw y (by simp))
    rw [List.concat_eq_append] at *
    rw [hend]
    rcases List.mem_append.1 hx with hk | hy
    · have hb : Before x y := (List.pairwise_append.1 hl).2.2 x hk y (by simp)
      exact Nat.le_trans hb (Nat.le_add_right ..)
    · obtain rfl := List.mem_singleton.1 hy
      exact Nat.le_refl _

theorem wellPlaced_iff_noWrap {size : Nat} (hl : Placed l) (hsize : size < 2 ^ 64) (hend : listEnd l ≤ size) :
    WellPlaced size l ↔ ∀ y ∈ l, NoWrap y := by
  constructor
  · intro h y hy
    exact Nat.lt_of_le_of_lt (h.within y hy) hsize
  · intro hw
    have hb := hl hw
    refine ⟨hb.imp ?_, hb.imp disjoint_of_before, ?_⟩
    · intro a b hab
      exact Nat.le_trans (Nat.le_add_right ..) hab
    · intro y hy
      exact Nat.le_trans (end_le_listEnd hb hw hy) hend

/-- A tag of an extent fills one field, once; every other tag leaves the field alone. -/
def Reads (t : Tag) (field : ExtentInfo → Nat) (s : ExtentTags) (n : Xml) (s' : ExtentTags) : Prop :=
  (n.tag? = some t ∧ t ∉ s.seen ∧ t ∈ s'.seen ∧ textTag n xmlParseUll = some (field s'.xt)) ∨
    (n.tag? ≠ some t ∧ field s'.xt = field s.xt ∧ (t ∈ s'.seen ↔ t ∈ s.seen))

variable {s s' : ExtentTags} {n : Xml} {t : Tag} {field : ExtentInfo → Nat}

theorem reads_other (ht : n.tag? ≠ some t) (hf : field s'.xt = field s.xt)
    (hseen : s'.seen = s.seen ∨ ∃ u ≠ t, s'.seen = u :: s.seen) : Reads t field s n s' := by
  refine .inr ⟨ht, hf, ?_⟩
  rcases hseen with hs | ⟨u, hu, hs⟩
  · rw [hs]
  · rw [hs, List.mem_cons]
    exact or_iff_right (fun h => hu h.symm)

theorem extentTag_reads (h : extentTag version s n = some s') :
    Reads .bytecount ExtentInfo.bytecount s n s' ∧
      (idxVersionSparse ≤ version → Reads .fileoffset ExtentInfo.fileoffset s n s') := by
  rw [extentTag] at h
  split at h
  case h_1 ht | h_2 ht | h_3 ht =>
    simp only [Option.bind_eq_bind, Option.bind_eq_some_iff, checkTag_eq_some] at h
    obtain ⟨seen, ⟨-, rfl⟩, a, -, h⟩ := h
    obtain rfl := Option.some.inj h
    exact ⟨reads_other (by simp [ht]) rfl (.inr ⟨_, by simp, rfl⟩),
      fun _ => reads_other (by simp [ht]) rfl (.inr ⟨_, by simp, rfl⟩)⟩
  case h_4 ht =>
    simp only [Option.bind_eq_bind, Option.bind_eq_some_iff, checkTag_eq_some] at h
    obtain ⟨seen, ⟨hnew, rfl⟩, a, ha, h⟩ := h
    obtain rfl := Option.some.inj h
    exact ⟨.inl ⟨ht, hnew, List.mem_cons_self, ha⟩,
      fun _ => reads_other (by simp [ht]) rfl (.inr ⟨_, by simp, rfl⟩)⟩
  case h_5 ht =>
    split_ifs at h with hv
    · simp only [Option.bind_eq_bind, Option.bind_eq_some_iff, checkTag_eq_some] at h
      obtain ⟨seen, ⟨hnew, rfl⟩, a, ha, h⟩ := h
      obtain rfl := Option.some.inj h
      exact ⟨reads_other (by simp [ht]) rfl (.inr ⟨_, by simp, rfl⟩),
        fun _ => .inl ⟨ht, hnew, List.mem_cons_self, ha⟩⟩
    · obtain rfl := Option.some.inj h
      exact ⟨reads_other (by simp [ht]) rfl (.inl rfl), fun hv' => absurd hv' hv⟩
  case h_6 hb hf =>
    obtain rfl := Option.some.inj h
    exact ⟨reads_other hb rfl (.inl rfl), fun _ => reads_other hf rfl (.inl rfl)⟩

/-- A field that is filled in the end holds the number of the tag's first occurrence. -/
theorem field_eq_number (step : ∀ {s n s'}, extentTag version s n = some s' → Reads t field s n s')
    {ns : List Xml} (h : ns.foldlM (extentTag version) s = some s') :
    (t ∈ s.seen → field s'.xt = field s.xt) ∧ (t ∉ s.seen → t ∈ s'.seen → field s'.xt = number t ns) := by
  induction ns generalizing s with
  | nil =>
    obtain rfl : s = s' := Option.some.inj h
    exact ⟨fun _ => rfl, fun hn hs => absurd hs hn⟩
  | cons n ns ih =>
    rw [List.foldlM_cons, Option.bind_eq_bind, Option.bind_eq_some_iff] at h
    obtain ⟨u, hu, h⟩ := h
    obtain ⟨hkept, hread⟩ := ih h
    rcases step hu with ⟨ht, hnew, hmem, hval⟩ | ⟨ht, hval, hmem⟩
    · refine ⟨fun hs => absurd hs hnew, fun _ _ => ?_⟩
      rw [hkept hmem, number, List.find?_cons_of_pos (by simpa using ht)]
      simp [hval]
    · refine ⟨fun hs => (hkept (hmem.2 hs)).trans hval, fun hs hs' => ?_⟩
      rw [hread (fun hu => hs (hmem.1 hu)) hs', number, number, List.find?_cons_of_neg (by simpa using ht)]

theorem mem_of_checkRequiredTags {required seen : List Tag} {v : Unit}
    (h : checkRequiredTags required seen = some v) {t : Tag} (ht : t ∈ required) : t ∈ seen := by
  rw [checkRequiredTags] at h
  split_ifs at h with hall
  simpa using List.all_eq_true.1 hall t ht

/-- The extent that `_xml_parse_one_extent` adds. -/
theorem xmlParseOneExtent_spec {d d' : File} {children : List Xml}
    (h : xmlParseOneExtent c version d children = some d') :
    d'.size = d.size ∧ ∃ x : ExtentInfo, x.bytecount = number .bytecount children ∧
      x.fileoffset = (if version < idxVersionSparse then listEnd d.extentlist else number .fileoffset children) ∧
      Lib.Ordered.insert Fits x d.extentlist = some d'.extentlist := by
  simp only [xmlParseOneExtent, Option.bind_eq_bind, Option.bind_eq_some_iff] at h
  obtain ⟨s, hs, s₁, hs₁, u, hreq, l, hl, h⟩ := h
  obtain rfl := Option.some.inj h
  refine ⟨rfl, s₁.xt, ?_, ?_, hl⟩
  · have hcount := (field_eq_number (fun h => (extentTag_reads h).1) hs).2 (by simp)
    rw [oldFileoffset] at hs₁
    split_ifs at hs₁ with hv
    · obtain ⟨seen, hseen, hs₁⟩ := Option.bind_eq_some_iff.1 hs₁
      obtain rfl := Option.some.inj hs₁
      obtain ⟨-, rfl⟩ := checkTag_eq_some.1 hseen
      apply hcount
      simpa using mem_of_checkRequiredTags hreq (by simp : Tag.bytecount ∈ _)
    · obtain rfl := Option.some.inj hs₁
      exact hcount (mem_of_checkRequiredTags hreq (by simp))
  · rw [oldFileoffset] at hs₁
    split_ifs at hs₁ ⊢ with hv
    · obtain ⟨seen, -, hs₁⟩ := Option.bind_eq_some_iff.1 hs₁
      obtain rfl := Option.some.inj hs₁
      rfl
    · obtain rfl := Option.some.inj hs₁
      have hoffset := (field_eq_number (fun h => (extentTag_reads h).2 (Nat.not_lt.1 hv)) hs).2 (by simp)
      exact hoffset (mem_of_checkRequiredTags hreq (by simp))

variable {d d' : File} {es : List Xml}

theorem xmlParseExtents_cons {e : Xml} :
    xmlParseExtents c version d (e :: es) = some d' ↔
      ∃ f, extentsTag c version d e = some f ∧ xmlParseExtents c version f es = some d' := by
  rw [xmlParseExtents, List.foldlM_cons, Option.bind_eq_bind, Option.bind_eq_some_iff]
  rfl

/-- A node inside `extentinfo` adds an extent or changes nothing. -/
theorem extentsTag_cases {e : Xml} (h : extentsTag c version d e = some d') :
    (∃ children, e = .element .extent children ∧ xmlParseOneExtent c version d children = some d') ∨
      (d' = d ∧ bodies .extent [e] = []) := by
  cases e with
  | element t children =>
    rw [extentsTag] at h
    split_ifs at h with ht
    · exact .inl ⟨children, by rw [ht], h⟩
    · exact .inr ⟨(Option.some.inj h).symm, by simp [bodies, ht]⟩
  | empty t =>
    rw [extentsTag] at h
    split_ifs at h
    exact .inr ⟨(Option.some.inj h).symm, rfl⟩
  | text v => exact .inr ⟨(Option.some.inj h).symm, rfl⟩
  | other => exact .inr ⟨(Option.some.inj h).symm, rfl⟩

theorem bodies_cons (t : Tag) (e : Xml) (es : List Xml) : bodies t (e :: es) = bodies t [e] ++ bodies t es := by
  rw [← List.singleton_append, bodies, List.filterMap_append]
  rfl

theorem bodies_element (t : Tag) (children es : List Xml) :
    bodies t (.element t children :: es) = children :: bodies t es := by
  rw [bodies_cons]
  simp [bodies]

theorem xmlParseExtents_placed (h : xmlParseExtents c version d es = some d') (hd : Placed d.extentlist) :
    d'.size = d.size ∧ Placed d'.extentlist := by
  induction es generalizing d with
  | nil =>
    obtain rfl : d = d' := Option.some.inj h
    exact ⟨rfl, hd⟩
  | cons e es ih =>
    obtain ⟨f, hf, hes⟩ := xmlParseExtents_cons.1 h
    rcases extentsTag_cases hf with ⟨children, -, hone⟩ | ⟨rfl, -⟩
    · obtain ⟨hsize, x, -, -, hx⟩ := xmlParseOneExtent_spec hone
      obtain ⟨hsize', hplaced⟩ := ih hes (placed_insert hd hx)
      exact ⟨hsize'.trans hsize, hplaced⟩
    · exact ih hes hd

/-- With a `fileoffset` in every extent, the list holds the extents of the document. -/
theorem noWrap_sparse (hv : idxVersionSparse ≤ version) (h : xmlParseExtents c version d es = some d') :
    (∀ y ∈ d'.extentlist, NoWrap y) ↔ (∀ y ∈ d.extentlist, NoWrap y) ∧
      ∀ x ∈ bodies .extent es, number .fileoffset x + number .bytecount x < 2 ^ 64 := by
  induction es generalizing d with
  | nil =>
    obtain rfl : d = d' := Option.some.inj h
    simp [bodies]
  | cons e es ih =>
    obtain ⟨f, hf, hes⟩ := xmlParseExtents_cons.1 h
    rcases extentsTag_cases hf with ⟨children, rfl, hone⟩ | ⟨rfl, he⟩
    · obtain ⟨-, x, hcount, hoffset, hx⟩ := xmlParseOneExtent_spec hone
      rw [if_neg (Nat.not_lt.2 hv)] at hoffset
      have hxw : NoWrap x ↔ number .fileoffset children + number .bytecount children < 2 ^ 64 := by
        rw [NoWrap, hcount, hoffset]
      rw [ih hes, noWrap_insert hx, hxw, bodies_element, List.forall_mem_cons]
      tauto
    · rw [ih hes, bodies_cons, he, List.nil_append]

/-- Without, an extent starts where the list ends, so the list ends at the sum of the byte counts for as long
as that sum does not wrap. -/
def Chained (l : List ExtentInfo) (total : Nat) : Prop :=
  ((∀ y ∈ l, NoWrap y) ↔ total < 2 ^ 64) ∧ (total < 2 ^ 64 → listEnd l = total)

theorem chained_nil : Chained [] 0 := ⟨by simp, fun _ => rfl⟩

theorem listEnd_append (l : List ExtentInfo) (x : ExtentInfo) : listEnd (l ++ [x]) = extentEnd x := by
  simp [listEnd]

theorem chained_append {total : Nat} (hl : Chained l total) (hx : x.fileoffset = listEnd l) :
    Chained (l ++ [x]) (total + x.bytecount) := by
  obtain ⟨hiff, hend⟩ := hl
  have hw : (∀ y ∈ l ++ [x], NoWrap y) ↔ total + x.bytecount < 2 ^ 64 := by
    simp only [List.mem_append, List.mem_singleton]
    constructor
    · intro h
      have htotal := hiff.1 (fun y hy => h y (.inl hy))
      have hxw : x.fileoffset + x.bytecount < 2 ^ 64 := h x (.inr rfl)
      rwa [hx, hend htotal] at hxw
    · intro h y hy
      rcases hy with hy | rfl
      · exact hiff.2 (by omega) y hy
      · rw [NoWrap, hx, hend (by omega)]
        exact h
  refine ⟨hw, fun h => ?_⟩
  rw [listEnd_append, extentEnd_eq (hw.2 h x (by simp)), hx, hend (by omega)]

theorem insert_listEnd (hx : x.fileoffset = listEnd l) : Lib.Ordered.insert Fits x l = some (l ++ [x]) := by
  apply Lib.Ordered.insert_last
  intro y hy
  rw [Fits, hx, listEnd, hy]

theorem xmlParseExtents_chained (hv : version < idxVersionSparse) {total : Nat} (hd : Chained d.extentlist total)
    (h : xmlParseExtents c version d es = some d') :
    Chained d'.extentlist (total + ((bodies .extent es).map (number .bytecount)).sum) := by
  induction es generalizing d total with
  | nil =>
    obtain rfl : d = d' := Option.some.inj h
    simpa [bodies] using hd
  | cons e es ih =>
    obtain ⟨f, hf, hes⟩ := xmlParseExtents_cons.1 h
    rcases extentsTag_cases hf with ⟨children, rfl, hone⟩ | ⟨rfl, he⟩
    · obtain ⟨-, x, hcount, hoffset, hx⟩ := xmlParseOneExtent_spec hone
      rw [if_pos hv] at hoffset
      rw [insert_listEnd hoffset] at hx
      have hnext := chained_append hd hoffset
      rw [Option.some.inj hx] at hnext
      have hrest := ih hnext hes
      rwa [hcount, Nat.add_assoc] at hrest
    · rw [bodies_cons, he, List.nil_append]
      exact ih hd hes

theorem noWrap_iff_inRange (hd : d.extentlist = []) (h : xmlParseExtents c version d es = some d') :
    (∀ y ∈ d'.extentlist, NoWrap y) ↔ ExtentsInRange version es := by
  rw [ExtentsInRange]
  split_ifs with hv
  · have hchain := xmlParseExtents_chained hv (hd ▸ chained_nil) h
    rw [Nat.zero_add] at hchain
    exact hchain.1
  · rw [noWrap_sparse (Nat.not_lt.1 hv) h, hd]
    simp

end Ltfs.XmlExtents
