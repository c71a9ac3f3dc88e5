import Mathlib.Data.List.Induction
import Ltfs.RealSize

namespace Ltfs.ExtentAlloc

open Format ExtentWords RealSize

/-- The walk of `_ltfs_fsraw_add_extent_unlocked` where the entry for a split may fail to be allocated. What has
become of the list by then stays. -/
def addExtentLoop (bs : Nat) (ext : ExtentInfo) (splitentry : Bool) :
    List ExtentInfo → List ExtentInfo → Nat → Except (List ExtentInfo) (List ExtentInfo × Nat)
  | [], passed, realsize => .ok (ext :: passed, word (realsize + ext.bytecount))
  | entry :: before, passed, realsize =>
    if ext.fileoffset ≤ entry.fileoffset ∧ entry.fileoffset < fileoffsetEnd ext then
      if fileoffsetEnd entry ≤ fileoffsetEnd ext then
        addExtentLoop bs ext splitentry before passed (wordSub realsize entry.bytecount)
      else
        let diff := wordSub (fileoffsetEnd ext) entry.fileoffset
        addExtentLoop bs ext splitentry before (truncateFront bs entry diff :: passed) (wordSub realsize diff)
    else if entry.fileoffset < ext.fileoffset ∧ ext.fileoffset < fileoffsetEnd entry then
      if fileoffsetEnd entry ≤ fileoffsetEnd ext then
        .ok (before.reverse ++ (joinOrInsert bs (truncateEnd entry ext.fileoffset) ext ++ passed),
          word (wordSub realsize (wordSub (fileoffsetEnd entry) ext.fileoffset) + ext.bytecount))
      else if splitentry then
        .ok (before.reverse ++ (joinOrInsert bs (truncateEnd entry ext.fileoffset) ext ++
          truncateFront bs entry (wordSub (fileoffsetEnd ext) entry.fileoffset) :: passed),
          word (wordSub realsize ext.bytecount + ext.bytecount))
      else .error (before.reverse ++ entry :: passed)
    else if fileoffsetEnd entry ≤ ext.fileoffset then
      .ok (before.reverse ++ (joinOrInsert bs entry ext ++ passed), word (realsize + ext.bytecount))
    else
      addExtentLoop bs ext splitentry before (entry :: passed) realsize

/-- Which of the two allocations have memory -/
structure Mem where
  extCopy : Bool
  splitentry : Bool
  deriving DecidableEq, Repr

def noMemory : Int := -1001

def noSpace : Int := -1051

def lessSpace : Int := -1124

/-- `_ltfs_fsraw_add_extent_unlocked` -/
def ltfsFsrawAddExtentUnlocked (l : Label) (mem : Mem) (ext : ExtentInfo) (d : File) : Int × File :=
  if !mem.extCopy then (noMemory, d)
  else
    match addExtentLoop l.blocksize ext mem.splitentry d.extentlist.reverse [] d.realsize with
    | .error es => (noMemory, { d with extentlist := es })
    | .ok (extentlist, realsize) =>
      (0, { extentlist := extentlist, size := max d.size (fileoffsetEnd ext), realsize := realsize })

/-- `dcache_initialized`: for a volume, whether it has a dentry cache with a name -/
def dcacheInitialized : Option (Option Bool) → Bool
  | none => false
  | some handle => handle.getD false

/-- What `ltfs_fsraw_add_extent` meets: the state of the partitions, the lock of the volume, and the result of
`dcache_flush` -/
structure Outside where
  ipReadonly : Int
  dpReadonly : Int
  volumeLock : Int
  dcacheFlush : Int

/-- `ltfs_fsraw_add_extent` -/
def ltfsFsrawAddExtent (l : Label) (mem : Mem) (o : Outside) (ext : ExtentInfo) (d : File) : Int × File :=
  if o.ipReadonly < 0 ∧ o.ipReadonly ≠ noSpace ∧ o.ipReadonly ≠ lessSpace then (o.ipReadonly, d)
  else if o.dpReadonly < 0 ∧ o.dpReadonly ≠ noSpace ∧ o.dpReadonly ≠ lessSpace then (o.dpReadonly, d)
  else if o.volumeLock < 0 then (o.volumeLock, d)
  else
    let (ret, d) := ltfsFsrawAddExtentUnlocked l mem ext d
    (if dcacheInitialized none then o.dcacheFlush else ret, d)

variable {bs : Nat} {ext e f : ExtentInfo} {es before passed post : List ExtentInfo} {l : Label} {d : File} {mem : Mem}
  {split : Bool}

/-- The walk changes the entry and goes on. -/
def Changed (ext e : ExtentInfo) : Prop := ext.fileoffset ≤ e.fileoffset ∧ e.fileoffset < fileoffsetEnd ext

/-- The new extent lies strictly inside of the entry. -/
def Splits (ext e : ExtentInfo) : Prop :=
  e.fileoffset < ext.fileoffset ∧ ext.fileoffset < fileoffsetEnd e ∧ fileoffsetEnd ext < fileoffsetEnd e

/-- The walk ends at the entry. -/
def Stops (ext e : ExtentInfo) : Prop :=
  ¬Changed ext e ∧
    (e.fileoffset < ext.fileoffset ∧ ext.fileoffset < fileoffsetEnd e ∨ fileoffsetEnd e ≤ ext.fileoffset)

instance : Decidable (Changed ext e) := inferInstanceAs (Decidable (_ ∧ _))

/-- What the walk leaves of an entry on which it does not end -/
def leaves (bs : Nat) (ext e : ExtentInfo) : List ExtentInfo :=
  if Changed ext e then
    if fileoffsetEnd e ≤ fileoffsetEnd ext then []
    else [truncateFront bs e (wordSub (fileoffsetEnd ext) e.fileoffset)]
  else [e]

theorem leaves_deleted (h : Changed ext e) (hd : fileoffsetEnd e ≤ fileoffsetEnd ext) : leaves bs ext e = [] := by
  rw [leaves, if_pos h, if_pos hd]

theorem leaves_cut (h : Changed ext e) (hd : ¬fileoffsetEnd e ≤ fileoffsetEnd ext) :
    leaves bs ext e = [truncateFront bs e (wordSub (fileoffsetEnd ext) e.fileoffset)] := by
  rw [leaves, if_pos h, if_neg hd]

theorem leaves_kept (h : ¬Changed ext e) : leaves bs ext e = [e] := if_neg h

theorem word_lt (n : Nat) : word n < 2 ^ 64 := Nat.mod_lt _ (by decide)

/-- An entry that the walk changes is not what it was. -/
theorem leaves_changed (h : Changed ext e) : leaves bs ext e ≠ [e] := by
  by_cases hd : fileoffsetEnd e ≤ fileoffsetEnd ext
  · rw [leaves_deleted h hd]
    exact (List.cons_ne_nil _ _).symm
  · rw [leaves_cut h hd]
    intro heq
    have hend : fileoffsetEnd ext < 2 ^ 64 := word_lt _
    have hstart := congrArg ExtentInfo.fileoffset (List.cons.inj heq).1
    rw [truncateFront, wordSub_of_le (Nat.le_of_lt h.2) hend] at hstart
    dsimp only at hstart
    rw [Nat.add_sub_cancel' (Nat.le_of_lt h.2), word_of_lt hend] at hstart
    have := h.2
    omega

theorem leaves_length : (leaves bs ext e).length ≤ 1 := by
  rw [leaves]
  split_ifs
  · exact Nat.zero_le 1
  · exact Nat.le_refl 1
  · exact Nat.le_refl 1

theorem flatMap_leaves_length (post : List ExtentInfo) : (post.flatMap (leaves bs ext)).length ≤ post.length := by
  induction post with
  | nil => exact Nat.le_refl 0
  | cons f post ih =>
    have := @leaves_length bs ext f
    rw [List.flatMap_cons, List.length_append, List.length_cons]
    omega

theorem flatMap_leaves_iff : post.flatMap (leaves bs ext) = post ↔ ∀ f ∈ post, ¬Changed ext f := by
  induction post with
  | nil => exact iff_of_true rfl nofun
  | cons f post ih =>
    rw [List.flatMap_cons, List.forall_mem_cons, ← ih]
    constructor
    · intro h
      have hlen := congrArg List.length h
      rw [List.length_append, List.length_cons] at hlen
      have hrest := @flatMap_leaves_length bs ext post
      have hone := @leaves_length bs ext f
      obtain ⟨g, hg⟩ := List.length_eq_one_iff.1 (by omega : (leaves bs ext f).length = 1)
      rw [hg, List.singleton_append] at h
      obtain ⟨rfl, hpost⟩ := List.cons.inj h
      exact ⟨fun hc => leaves_changed hc hg, hpost⟩
    · rintro ⟨hc, hpost⟩
      rw [leaves_kept hc, hpost]
      rfl

/-- Without memory for a split the walk fails where it meets an entry to be split before one to end on. -/
theorem loop_error (realsize : Nat) (h : addExtentLoop bs ext split before passed realsize = .error es) :
    ∃ rest e post, before.reverse = rest ++ e :: post ∧ Splits ext e ∧ (∀ f ∈ post, ¬Stops ext f) ∧
      es = rest ++ e :: (post.flatMap (leaves bs ext) ++ passed) := by
  induction before generalizing passed realsize with
  | nil => cases h
  | cons e before ih =>
    have hmore : ∀ {p r}, addExtentLoop bs ext split before p r = .error es → ¬Stops ext e →
        p = leaves bs ext e ++ passed → ∃ rest g post, (e :: before).reverse = rest ++ g :: post ∧ Splits ext g ∧
          (∀ f ∈ post, ¬Stops ext f) ∧ es = rest ++ g :: (post.flatMap (leaves bs ext) ++ passed) := by
      intro p r hloop hstop hp
      obtain ⟨rest, g, post, hrev, hsplit, hpost, hes⟩ := ih r hloop
      refine ⟨rest, g, post ++ [e], ?_, hsplit, ?_, ?_⟩
      · rw [List.reverse_cons, hrev, List.append_assoc]
        rfl
      · rw [List.forall_mem_append]
        exact ⟨hpost, List.forall_mem_singleton.2 hstop⟩
      · rw [hes, hp, List.flatMap_append, List.flatMap_singleton, List.append_assoc]
    rw [addExtentLoop] at h
    split_ifs at h with h₁ h₂ h₃ h₄ h₅ h₆
    · exact hmore h (fun hs => hs.1 h₁) (by rw [leaves_deleted h₁ h₂]; rfl)
    · exact hmore h (fun hs => hs.1 h₁) (by rw [leaves_cut h₁ h₂]; rfl)
    · refine ⟨before.reverse, e, [], by rw [List.reverse_cons], ⟨h₃.1, h₃.2, by omega⟩, nofun, ?_⟩
      exact (Except.error.inj h).symm
    · exact hmore h (fun hs => hs.2.elim h₃ h₆) (by rw [leaves_kept h₁]; rfl)

theorem loop_passes (hstop : ¬Stops ext f) (realsize : Nat) :
    ∃ r, addExtentLoop bs ext split (f :: before) passed realsize =
      addExtentLoop bs ext split before (leaves bs ext f ++ passed) r := by
  rw [addExtentLoop]
  split_ifs with h₁ h₂ h₃ h₄ h₅ h₆
  · exact ⟨_, by rw [leaves_deleted h₁ h₂]; rfl⟩
  · exact ⟨_, by rw [leaves_cut h₁ h₂]; rfl⟩
  · exact absurd ⟨h₁, .inl h₃⟩ hstop
  · exact absurd ⟨h₁, .inl h₃⟩ hstop
  · exact absurd ⟨h₁, .inl h₃⟩ hstop
  · exact absurd ⟨h₁, .inr h₆⟩ hstop
  · exact ⟨_, by rw [leaves_kept h₁]; rfl⟩

theorem loop_fails (hsplit : Splits ext e) (rest : List ExtentInfo) (hpost : ∀ f ∈ post, ¬Stops ext f) (realsize : Nat) :
    addExtentLoop bs ext false (post.reverse ++ e :: rest.reverse) passed realsize =
      .error (rest ++ e :: (post.flatMap (leaves bs ext) ++ passed)) := by
  induction post using List.reverseRecOn generalizing passed realsize with
  | nil =>
    obtain ⟨hstart, hend, hinside⟩ := hsplit
    rw [List.reverse_nil, List.nil_append, addExtentLoop, if_neg (by omega), if_pos ⟨hstart, hend⟩, if_neg (by omega),
      List.reverse_reverse]
    rfl
  | append_singleton post f ih =>
    rw [List.forall_mem_append] at hpost
    obtain ⟨r, hr⟩ := @loop_passes bs ext f (post.reverse ++ e :: rest.reverse) passed false
      (hpost.2 f List.mem_cons_self) realsize
    rw [List.reverse_append, List.reverse_singleton, List.singleton_append, List.cons_append, hr, ih hpost.1,
      List.flatMap_append, List.flatMap_singleton, List.append_assoc]

/-- The extent is in the list, or its bytes are those at the end of the entry that it carries on. -/
def Recorded (bs : Nat) (ext : ExtentInfo) (es : List ExtentInfo) : Prop :=
  ext ∈ es ∨ ∃ e, Adjoins bs e ext ∧ { e with bytecount := word (e.bytecount + ext.bytecount) } ∈ es

theorem recorded_joinOrInsert (bs : Nat) (e ext : ExtentInfo) : Recorded bs ext (joinOrInsert bs e ext) := by
  rw [joinOrInsert]
  split_ifs with h
  · exact .inr ⟨e, h, List.mem_cons_self⟩
  · exact .inl (List.mem_cons_of_mem e List.mem_cons_self)

theorem Recorded.mono {es' : List ExtentInfo} (h : Recorded bs ext es) (hsub : es ⊆ es') : Recorded bs ext es' :=
  h.imp (fun hm => hsub hm) fun ⟨e, hadj, hm⟩ => ⟨e, hadj, hsub hm⟩

theorem loop_records {realsize n : Nat} (h : addExtentLoop bs ext split before passed realsize = .ok (es, n)) :
    Recorded bs ext es := by
  have hinsert : ∀ {e : ExtentInfo} {front back : List ExtentInfo},
      Recorded bs ext (front ++ (joinOrInsert bs e ext ++ back)) := fun {e front back} =>
    (recorded_joinOrInsert bs e ext).mono fun _ hm => List.mem_append_right _ (List.mem_append_left _ hm)
  induction before generalizing passed realsize with
  | nil =>
    obtain ⟨rfl, -⟩ := Prod.mk.inj (Except.ok.inj h)
    exact .inl List.mem_cons_self
  | cons e before ih =>
    rw [addExtentLoop] at h
    split_ifs at h with h₁ h₂ h₃ h₄ h₅ h₆
    · exact ih h
    · exact ih h
    · exact (Prod.mk.inj (Except.ok.inj h)).1 ▸ hinsert
    · exact (Prod.mk.inj (Except.ok.inj h)).1 ▸ hinsert
    · exact (Prod.mk.inj (Except.ok.inj h)).1 ▸ hinsert
    · exact ih h

/-- A walk that does not fail is the one that has all the memory it needs. -/
theorem loop_ok {realsize : Nat} {res : List ExtentInfo × Nat}
    (h : addExtentLoop bs ext split before passed realsize = .ok res) :
    res = RealSize.addExtentLoop bs ext before passed realsize := by
  induction before generalizing passed realsize with
  | nil => exact (Except.ok.inj h).symm
  | cons e before ih =>
    rw [addExtentLoop] at h
    rw [RealSize.addExtentLoop]
    split_ifs at h ⊢ with h₁ h₂ h₃ h₄ h₅ h₆
    · exact ih h
    · exact ih h
    · exact (Except.ok.inj h).symm
    · exact (Except.ok.inj h).symm
    · exact (Except.ok.inj h).symm
    · exact ih h

theorem unlocked_ok (h : (ltfsFsrawAddExtentUnlocked l mem ext d).1 = 0) :
    (ltfsFsrawAddExtentUnlocked l mem ext d).2 = RealSize.ltfsFsrawAddExtent l ext d := by
  rw [ltfsFsrawAddExtentUnlocked] at h ⊢
  split_ifs at h ⊢ with hcopy
  · cases h
  · cases hloop : addExtentLoop l.blocksize ext mem.splitentry d.extentlist.reverse [] d.realsize with
    | error es =>
      rw [hloop] at h
      cases h
    | ok res =>
      rw [RealSize.ltfsFsrawAddExtent, ← loop_ok hloop]

/-- A failure leaves the file as it was, and success means that the extent is in the list. -/
structure Right (l : Label) (ext : ExtentInfo) (d : File) : Prop where
  atomic : ∀ mem, (ltfsFsrawAddExtentUnlocked l mem ext d).1 ≠ 0 → (ltfsFsrawAddExtentUnlocked l mem ext d).2 = d
  recorded : ∀ mem o, (ltfsFsrawAddExtent l mem o ext d).1 = 0 →
    Recorded l.blocksize ext (ltfsFsrawAddExtent l mem o ext d).2.extentlist

/-- No entry that has to be split comes before an entry that the walk has changed by then. -/
def Steady (ext : ExtentInfo) (es : List ExtentInfo) : Prop :=
  ∀ rest e post, es = rest ++ e :: post → Splits ext e → (∀ f ∈ post, ¬Stops ext f) → ∀ f ∈ post, ¬Changed ext f

theorem unlocked_recorded (h : (ltfsFsrawAddExtentUnlocked l mem ext d).1 = 0) :
    Recorded l.blocksize ext (ltfsFsrawAddExtentUnlocked l mem ext d).2.extentlist := by
  rw [ltfsFsrawAddExtentUnlocked] at h ⊢
  split_ifs at h ⊢ with hcopy
  · cases h
  · cases hloop : addExtentLoop l.blocksize ext mem.splitentry d.extentlist.reverse [] d.realsize with
    | error es =>
      rw [hloop] at h
      cases h
    | ok res => exact loop_records hloop

theorem addExtent_recorded {o : Outside} (h : (ltfsFsrawAddExtent l mem o ext d).1 = 0) :
    Recorded l.blocksize ext (ltfsFsrawAddExtent l mem o ext d).2.extentlist := by
  have hcache : dcacheInitialized none = false := rfl
  simp only [ltfsFsrawAddExtent, hcache, Bool.false_eq_true, if_false] at h ⊢
  split_ifs at h ⊢ with h₁ h₂ h₃
  · dsimp only at h
    omega
  · dsimp only at h
    omega
  · dsimp only at h
    omega
  · exact unlocked_recorded h

theorem atomic_of_steady (h : Steady ext d.extentlist) (hfail : (ltfsFsrawAddExtentUnlocked l mem ext d).1 ≠ 0) :
    (ltfsFsrawAddExtentUnlocked l mem ext d).2 = d := by
  rw [ltfsFsrawAddExtentUnlocked] at hfail ⊢
  split_ifs at hfail ⊢ with hcopy
  · rfl
  · cases hloop : addExtentLoop l.blocksize ext mem.splitentry d.extentlist.reverse [] d.realsize with
    | ok res =>
      rw [hloop] at hfail
      exact absurd rfl hfail
    | error es =>
      obtain ⟨rest, e, post, hrev, hsplit, hpost, rfl⟩ := loop_error _ hloop
      rw [List.reverse_reverse] at hrev
      have hkept := (@flatMap_leaves_iff l.blocksize ext post).2 (h rest e post hrev hsplit hpost)
      dsimp only
      rw [hkept, List.append_nil, ← hrev]

theorem steady_of_atomic
    (h : ∀ mem, (ltfsFsrawAddExtentUnlocked l mem ext d).1 ≠ 0 → (ltfsFsrawAddExtentUnlocked l mem ext d).2 = d) :
    Steady ext d.extentlist := by
  intro rest e post hes hsplit hpost
  have hloop := @loop_fails l.blocksize ext e [] post hsplit rest hpost d.realsize
  have hrev : d.extentlist.reverse = post.reverse ++ e :: rest.reverse := by
    rw [hes, List.reverse_append, List.reverse_cons, List.append_assoc, List.singleton_append]
  have hres : ltfsFsrawAddExtentUnlocked l ⟨true, false⟩ ext d =
      (noMemory, { d with extentlist := rest ++ e :: (post.flatMap (leaves l.blocksize ext) ++ []) }) := by
    rw [ltfsFsrawAddExtentUnlocked, hrev, hloop]
    rfl
  have hfail : (ltfsFsrawAddExtentUnlocked l ⟨true, false⟩ ext d).1 = noMemory := by rw [hres]
  have hsame := h ⟨true, false⟩ (by rw [hfail]; decide)
  rw [hres, List.append_nil] at hsame
  have hlist := (congrArg (fun d => d.extentlist) hsame).trans hes
  have htail := (List.cons.inj (List.append_cancel_left hlist)).2
  exact flatMap_leaves_iff.1 htail

/-- A list in the order of the file, without overlaps, is steady. -/
theorem steady_of_inOrder (h : RawSpec.InOrder d.extentlist)
    (hend : ∀ e ∈ d.extentlist, e.fileoffset + e.bytecount < 2 ^ 64) : Steady ext d.extentlist := by
  intro rest e post hes hsplit hpost f hf hc
  rw [hes] at h
  have hlt : e.fileoffset + e.bytecount < 2 ^ 64 := hend e (by rw [hes]; exact List.mem_append_right _ List.mem_cons_self)
  have hafter : e.fileoffset + e.bytecount ≤ f.fileoffset :=
    (ExtentOrder.inOrder_cons.1 (ExtentOrder.inOrder_append.1 h).2.1).1 f hf
  have hword : fileoffsetEnd e = e.fileoffset + e.bytecount := word_of_lt hlt
  have hfc := hc.2
  have hinside := hsplit.2.2
  omega

/-- The addition of an extent does what it is for on the lists where no entry has to be split after another one was
changed. -/
theorem right_iff (l : Label) (ext : ExtentInfo) (d : File) : Right l ext d ↔ Steady ext d.extentlist :=
  ⟨fun h => steady_of_atomic h.atomic, fun h => ⟨fun _ => atomic_of_steady h, fun _ _ => addExtent_recorded⟩⟩

/-- Three extents of a document that the parser accepts: the end of the second one is 100 in 64 bits. -/
def overlapping : File where
  extentlist := [⟨⟨5, 'b'⟩, 0, 200, 0⟩, ⟨⟨5, 'b'⟩, 0, 110, 2 ^ 64 - 10⟩, ⟨⟨6, 'b'⟩, 0, 10, 100⟩]
  size := 200
  realsize := 320

theorem overlapping_trimmed : ¬Right fourBytes ⟨⟨9, 'b'⟩, 0, 10, 95⟩ overlapping := by
  intro h
  have hsame := h.atomic ⟨true, false⟩ (by decide)
  exact absurd hsame (by decide)

end Ltfs.ExtentAlloc
