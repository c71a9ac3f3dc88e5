import Ltfs.RenameLookup

namespace Ltfs.TreeSteps

open Ltfs.Dentry Ltfs.Handles Ltfs.DentryTree Ltfs.UnlinkSpec Ltfs.CreateSpec Ltfs.Lib.Paths

variable {s s' : Fs} {dir d p c parent : Ino} {n k name : Name}

/-- A dentry is unlinked: taken from its directory, and freed unless it is still open. -/
def removed (s : Fs) (dir d : Ino) (n : Name) : Fs := (detached s dir d n).dropHandle d

section Removed

variable (T : Tree s) (h : childOf s dir n = some d) (hempty : s.childList d = [])
include T h

theorem mem_removed : (k, c) ∈ (removed s dir d n).childList p ↔ (k, c) ∈ s.childList p ∧ c ≠ d := by
  have hnd : (s.childList dir).Nodup := (T.keys dir).of_map
  have hm := mem_of_childOf h
  by_cases hp : p = dir
  · subst hp
    simp only [removed, Fs.dropHandle_childList, detached_childList, Function.update_self]
    rw [hnd.mem_erase_iff]
    constructor
    · rintro ⟨hne, hmem⟩
      refine ⟨hmem, ?_⟩
      rintro rfl
      apply hne
      have h1 := (T.entry hmem).1
      rw [(T.entry hm).1] at h1
      rw [Option.some.inj h1]
    · rintro ⟨hmem, hne⟩
      exact ⟨fun he => hne (Prod.ext_iff.mp he).2, hmem⟩
  · simp only [removed, Fs.dropHandle_childList, detached_childList, Function.update_of_ne hp]
    constructor
    · intro hmem
      refine ⟨hmem, ?_⟩
      rintro rfl
      have h1 := (T.entry hmem).2
      rw [(T.entry hm).2] at h1
      exact hp (Option.some.inj h1).symm
    · exact fun hmem => hmem.1

theorem removed_keys (p : Ino) : (((removed s dir d n).childList p).map Prod.fst).Nodup := by
  by_cases hp : p = dir
  · subst hp
    simp only [removed, Fs.dropHandle_childList, detached_childList, Function.update_self]
    exact (List.erase_sublist.map _).nodup (T.keys p)
  · simp only [removed, Fs.dropHandle_childList, detached_childList, Function.update_of_ne hp]
    exact T.keys p

theorem childOf_removed : childOf (removed s dir d n) p k = some c ↔ childOf s p k = some c ∧ c ≠ d := by
  rw [T.childOf_iff, ← mem_removed T h]
  constructor
  · exact mem_of_childOf
  · intro hm
    simp only [childOf, Option.map_eq_some_iff, Prod.exists]
    exact ⟨k, c, (find_eq_some (removed_keys T h p)).mpr hm, rfl⟩

include hempty

/-- No path through the removed dentry leads further. -/
theorem follow_removed {xs : List Name} (hne : c ≠ d) :
    follow (childOf (removed s dir d n)) s.root xs = some c ↔ follow (childOf s) s.root xs = some c := by
  constructor
  · exact follow_mono (fun p k c hc => ((childOf_removed T h).mp hc).1)
  · intro hx
    rw [← hx]
    apply follow_congr
    intro ys k zs e hz hy
    cases hc : childOf s e k with
    | none =>
      cases hc' : childOf (removed s dir d n) e k with
      | none => rfl
      | some c' =>
        rw [((childOf_removed T h).mp hc').1] at hc
        cases hc
    | some c' =>
      refine (childOf_removed T h).mpr ⟨hc, ?_⟩
      rintro rfl
      rw [hz, follow_append, hy, Option.bind_some, follow_cons, hc, Option.bind_some] at hx
      cases zs with
      | nil => exact hne (Option.some.inj hx).symm
      | cons k' zs =>
        rw [follow_cons, childOf_nil hempty] at hx
        cases hx

theorem linked_removed : Linked (removed s dir d n) c ↔ Linked s c ∧ c ≠ d := by
  constructor
  · rintro ⟨xs, hx⟩
    have hne : c ≠ d := by
      rintro rfl
      cases xs using List.reverseRecOn with
      | nil =>
        have h1 := T.childOf_parent h
        rw [← Option.some.inj hx] at h1
        have h2 : s.parent s.root = some dir := h1
        rw [T.root_parent] at h2
        cases h2
      | append_singleton xs k =>
        obtain ⟨p, -, hp⟩ := follow_concat_inv hx
        exact ((childOf_removed T h).mp hp).2 rfl
    exact ⟨⟨xs, (follow_removed T h hempty hne).mp hx⟩, hne⟩
  · rintro ⟨⟨xs, hx⟩, hne⟩
    exact ⟨xs, (follow_removed T h hempty hne).mpr hx⟩

theorem tree_removed : Tree (removed s dir d n) where
  root_parent := by
    have h1 := T.root_parent
    by_cases hr : s.root = d
    · simp [removed, hr]
    · simpa [removed, Function.update_of_ne hr] using h1
  root_dir := T.root_dir
  entry := by
    intro p k c hm
    obtain ⟨hm, hne⟩ := (mem_removed T h).mp hm
    obtain ⟨h1, h2⟩ := T.entry hm
    constructor
    · simp only [removed, Fs.dropHandle_name, detached_name]
      split
      · rw [Function.update_of_ne hne, h1]
      · exact h1
    · simp [removed, Function.update_of_ne hne, h2]
  listed := by
    intro c p hp
    have hne : c ≠ d := by
      rintro rfl
      simp [removed] at hp
    have hp' : s.parent c = some p := by simpa [removed, Function.update_of_ne hne] using hp
    obtain ⟨k, h1, h2⟩ := T.listed hp'
    refine ⟨k, ?_, (mem_removed T h).mpr ⟨h2, hne⟩⟩
    simp only [removed, Fs.dropHandle_name, detached_name]
    split
    · rw [Function.update_of_ne hne, h1]
    · exact h1
  keys := removed_keys T h
  linked := by
    intro c p hp
    have hne : c ≠ d := by
      rintro rfl
      simp [removed] at hp
    have hp' : s.parent c = some p := by simpa [removed, Function.update_of_ne hne] using hp
    exact (linked_removed T h hempty).mpr ⟨T.linked hp', hne⟩
  owned := by
    intro p hp
    obtain ⟨⟨k, c⟩, hm⟩ := List.exists_mem_of_ne_nil _ hp
    have hm' := ((mem_removed T h).mp hm).1
    have hl := T.owned (List.ne_nil_of_mem hm')
    refine ⟨(linked_removed T h hempty).mpr ⟨hl.1, ?_⟩, hl.2⟩
    rintro rfl
    rw [hempty] at hm'
    cases hm'
  counted := by
    intro c hc
    obtain ⟨hl, hne⟩ := (linked_removed T h hempty).mp hc
    simpa [removed, Function.update_of_ne hne] using T.counted hl
  known := fun hc => T.known ((linked_removed T h hempty).mp hc).1
  alive := by
    intro c hc
    obtain ⟨hl, hne⟩ := (linked_removed T h hempty).mp hc
    simp only [removed, Fs.dropHandle_live, detached_live]
    split
    · rw [Function.update_of_ne hne]
      exact T.alive hl
    · exact T.alive hl

end Removed

section Created

variable {isdir : Bool} {count : Nat} {u : UInt64}

/-- The state with the new entry in the table of its directory. -/
def added (s : Fs) (u : UInt64) (parent : Ino) (name : Name) (isdir : Bool) (count : Nat) : Fs :=
  created s u parent name isdir ((name, s.nextIno) :: s.childList parent) count

variable (T : Tree s) (hp : Linked s parent)
include T hp

theorem mem_added : (k, c) ∈ (added s u parent name isdir count).childList p ↔
    (k, c) ∈ s.childList p ∨ (p = parent ∧ k = name ∧ c = s.nextIno) := by
  have hnew := (T.unlinked (T.not_linked_of_le (Nat.le_refl s.nextIno))).2
  have hne : parent ≠ s.nextIno := Nat.ne_of_lt (T.known hp)
  by_cases h1 : p = parent
  · subst h1
    simp [added, or_comm]
  · by_cases h2 : p = s.nextIno
    · simp [added, h2, hne.symm, hnew]
    · simp [added, h1, h2]

variable (hfree : childOf s parent name = none)
include hfree

theorem added_keys (p : Ino) : (((added s u parent name isdir count).childList p).map Prod.fst).Nodup := by
  have hne : parent ≠ s.nextIno := Nat.ne_of_lt (T.known hp)
  by_cases h1 : p = parent
  · subst h1
    simp only [added, created_childList, Function.update_self, List.map_cons, List.nodup_cons]
    refine ⟨?_, T.keys p⟩
    intro hm
    obtain ⟨⟨k, c⟩, hmem, rfl⟩ := List.mem_map.mp hm
    exact childOf_eq_none.mp hfree c hmem
  · by_cases h2 : p = s.nextIno
    · simp [added, h2, hne.symm]
    · simpa [added, h1, h2] using T.keys p

theorem childOf_added : childOf (added s u parent name isdir count) p k = some c ↔
    childOf s p k = some c ∨ (p = parent ∧ k = name ∧ c = s.nextIno) := by
  have hmem : (k, c) ∈ (added s u parent name isdir count).childList p ↔ _ := mem_added T hp
  rw [T.childOf_iff, ← hmem]
  constructor
  · exact mem_of_childOf
  · intro hm
    simp only [childOf, Option.map_eq_some_iff, Prod.exists]
    exact ⟨k, c, (find_eq_some (added_keys T hp hfree p)).mpr hm, rfl⟩

theorem linked_added : Linked (added s u parent name isdir count) c ↔ Linked s c ∨ c = s.nextIno := by
  have hmono : ∀ {c}, Linked s c → Linked (added s u parent name isdir count) c := by
    rintro c ⟨xs, hx⟩
    exact ⟨xs, follow_mono (fun p k c hc => (childOf_added T hp hfree).mpr (.inl hc)) hx⟩
  constructor
  · rintro ⟨xs, hx⟩
    cases xs using List.reverseRecOn with
    | nil =>
      left
      rw [← Option.some.inj hx]
      exact reached_root
    | append_singleton xs k =>
      obtain ⟨p, -, hc⟩ := follow_concat_inv hx
      rcases (childOf_added T hp hfree).mp hc with hc | ⟨-, -, rfl⟩
      · exact .inl (T.childOf_linked hc)
      · exact .inr rfl
  · rintro (hl | rfl)
    · exact hmono hl
    · exact (hmono hp).step ((childOf_added T hp hfree).mpr (.inr ⟨rfl, rfl, rfl⟩))

theorem tree_added (hdir : s.isdir parent) : Tree (added s u parent name isdir count) where
  root_parent := by
    have hr : s.root ≠ s.nextIno := Nat.ne_of_lt (T.known reached_root)
    simpa [added, hr] using T.root_parent
  root_dir := by
    have hr : s.root ≠ s.nextIno := Nat.ne_of_lt (T.known reached_root)
    simpa [added, hr] using T.root_dir
  entry := by
    intro p k c hm
    rcases (mem_added T hp).mp hm with hm | ⟨rfl, rfl, rfl⟩
    · have hc : c ≠ s.nextIno := Nat.ne_of_lt (T.known (T.linked (T.entry hm).2))
      simpa [added, hc] using T.entry hm
    · simp [added]
  listed := by
    intro c p hc
    by_cases hn : c = s.nextIno
    · subst hn
      have hpp : parent = p := by simpa [added] using hc
      subst hpp
      exact ⟨name, by simp [added], (mem_added T hp).mpr (.inr ⟨rfl, rfl, rfl⟩)⟩
    · have hc' : s.parent c = some p := by simpa [added, hn] using hc
      obtain ⟨k, h1, h2⟩ := T.listed hc'
      exact ⟨k, by simpa [added, hn] using h1, (mem_added T hp).mpr (.inl h2)⟩
  keys := added_keys T hp hfree
  linked := by
    intro c p hc
    by_cases hn : c = s.nextIno
    · exact (linked_added T hp hfree).mpr (.inr hn)
    · have hc' : s.parent c = some p := by simpa [added, hn] using hc
      exact (linked_added T hp hfree).mpr (.inl (T.linked hc'))
  owned := by
    intro p hl
    obtain ⟨⟨k, c⟩, hm⟩ := List.exists_mem_of_ne_nil _ hl
    rcases (mem_added T hp).mp hm with hm | ⟨rfl, -, -⟩
    · have ho := T.owned (List.ne_nil_of_mem hm)
      have hn : p ≠ s.nextIno := Nat.ne_of_lt (T.known ho.1)
      exact ⟨(linked_added T hp hfree).mpr (.inl ho.1), by simpa [added, hn] using ho.2⟩
    · have hn : p ≠ s.nextIno := Nat.ne_of_lt (T.known hp)
      exact ⟨(linked_added T hp hfree).mpr (.inl hp), by simpa [added, hn] using hdir⟩
  counted := by
    intro c hc
    rcases (linked_added T hp hfree).mp hc with hl | rfl
    · have hn : c ≠ s.nextIno := Nat.ne_of_lt (T.known hl)
      simpa [added, hn] using T.counted hl
    · simp [added]
  known := by
    intro c hc
    rcases (linked_added T hp hfree).mp hc with hl | rfl
    · exact Nat.lt_succ_of_lt (T.known hl)
    · exact Nat.lt_succ_self _
  alive := by
    intro c hc
    rcases (linked_added T hp hfree).mp hc with hl | rfl
    · have hn : c ≠ s.nextIno := Nat.ne_of_lt (T.known hl)
      simpa [added, hn] using T.alive hl
    · simp [added]

end Created

section Relinked

variable {fromdir todir f : Ino} {fn tn : Name}

/-- The dentry `f` is taken from one directory and gets its new parent and name. -/
@[simps -fullyApplied]
def relinked (s : Fs) (fromdir todir f : Ino) (fn tn : Name) (es : Entries) : Fs :=
  { s with
    childList := Function.update
      (Function.update s.childList fromdir ((s.childList fromdir).erase (fn, f))) todir es
    parent := Function.update s.parent f (some todir)
    name := Function.update s.name f (some tn)
    linkCount := (if s.isdir f then (s.decLink fromdir).incLink todir else s).linkCount }

/-- The entries of the new directory once the old entry is gone. -/
def otherEntries (s : Fs) (fromdir todir f : Ino) (fn : Name) : Entries :=
  Function.update s.childList fromdir ((s.childList fromdir).erase (fn, f)) todir

def moved (s : Fs) (fromdir todir f : Ino) (fn tn : Name) : Fs :=
  relinked s fromdir todir f fn tn ((tn, f) :: otherEntries s fromdir todir f fn)

variable (T : Tree s) (hc : childOf s fromdir fn = some f) (htodir : Linked s todir)
include T hc

theorem mem_otherEntries : (k, c) ∈ otherEntries s fromdir p f fn ↔ (k, c) ∈ s.childList p ∧ c ≠ f := by
  exact mem_removed T hc

theorem mem_moved : (k, c) ∈ (moved s fromdir todir f fn tn).childList p ↔
    ((k, c) ∈ s.childList p ∧ c ≠ f) ∨ (p = todir ∧ k = tn ∧ c = f) := by
  have ho := mem_otherEntries (p := p) (k := k) (c := c) T hc
  by_cases hp : p = todir
  · subst hp
    simp only [moved, relinked_childList, Function.update_self, List.mem_cons, Prod.mk.injEq, ho,
      true_and]
    exact or_comm
  · simp only [otherEntries] at ho
    simp [moved, ho, hp]

variable (hfree : childOf s todir tn = none ∨ (todir = fromdir ∧ tn = fn))
include hfree

theorem moved_keys (p : Ino) :
    (((moved s fromdir todir f fn tn).childList p).map Prod.fst).Nodup := by
  have ho : ((otherEntries s fromdir p f fn).map Prod.fst).Nodup := removed_keys T hc p
  by_cases hp : p = todir
  · subst hp
    simp only [moved, relinked_childList, Function.update_self, List.map_cons, List.nodup_cons]
    refine ⟨?_, ho⟩
    intro hm
    obtain ⟨⟨k, c⟩, hmem, rfl⟩ := List.mem_map.mp hm
    obtain ⟨hlist, hne⟩ := (mem_otherEntries T hc).mp hmem
    rcases hfree with hfree | ⟨rfl, rfl⟩
    · exact childOf_eq_none.mp hfree c hlist
    · rw [T.childOf_iff.mpr hlist] at hc
      exact hne (Option.some.inj hc)
  · simp only [otherEntries] at ho
    simpa [moved, Function.update_of_ne hp] using ho

theorem childOf_moved_iff : childOf (moved s fromdir todir f fn tn) p k = some c ↔
    (childOf s p k = some c ∧ c ≠ f) ∨ (p = todir ∧ k = tn ∧ c = f) := by
  have hmem : (k, c) ∈ (moved s fromdir todir f fn tn).childList p ↔ _ := mem_moved T hc
  rw [T.childOf_iff, ← hmem]
  constructor
  · exact mem_of_childOf
  · intro hm
    simp only [childOf, Option.map_eq_some_iff, Prod.exists]
    exact ⟨k, c, (find_eq_some (moved_keys T hc hfree p)).mpr hm, rfl⟩

/-- The tables after the move are the old ones with one edge moved. -/
theorem childOf_moved :
    childOf (moved s fromdir todir f fn tn) = move (childOf s) fromdir fn todir tn f := by
  funext p k
  apply Option.ext
  intro c
  rw [childOf_moved_iff T hc hfree]
  simp only [move]
  by_cases h1 : p = todir ∧ k = tn
  · obtain ⟨rfl, rfl⟩ := h1
    simp only [and_self, if_true, Option.some.injEq, true_and]
    constructor
    · rintro (⟨h2, hne⟩ | rfl)
      · rcases hfree with hfree | ⟨rfl, rfl⟩
        · rw [hfree] at h2
          cases h2
        · rw [hc] at h2
          exact Option.some.inj h2
      · rfl
    · rintro rfl
      exact .inr rfl
  · rw [if_neg h1]
    by_cases h2 : p = fromdir ∧ k = fn
    · obtain ⟨rfl, rfl⟩ := h2
      rw [if_pos ⟨rfl, rfl⟩, hc]
      constructor
      · rintro (⟨h3, hne⟩ | ⟨rfl, rfl, -⟩)
        · exact absurd (Option.some.inj h3).symm hne
        · exact absurd ⟨rfl, rfl⟩ h1
      · rintro ⟨⟩
    · rw [if_neg h2]
      constructor
      · rintro (⟨h3, -⟩ | ⟨rfl, rfl, -⟩)
        · exact h3
        · exact absurd ⟨rfl, rfl⟩ h1
      · intro h3
        refine .inl ⟨h3, ?_⟩
        rintro rfl
        exact h2 (T.forest.unique h3 hc)

variable (hloop : ∀ zs, follow (childOf s) f zs ≠ some todir)
include htodir hloop

theorem linked_moved : Linked (moved s fromdir todir f fn tn) c ↔ Linked s c := by
  obtain ⟨fp, hfp⟩ := T.parent_linked hc
  obtain ⟨tp, htp⟩ := htodir
  constructor
  · rintro ⟨xs, hx⟩
    cases xs using List.reverseRecOn with
    | nil => exact ⟨[], hx⟩
    | append_singleton xs k =>
      obtain ⟨p, -, hp⟩ := follow_concat_inv hx
      rcases (childOf_moved_iff T hc hfree).mp hp with ⟨h1, -⟩ | ⟨-, -, rfl⟩
      · exact T.childOf_linked h1
      · exact T.childOf_linked hc
  · rintro ⟨xs, hx⟩
    rw [Linked, childOf_moved T hc hfree]
    by_cases h1 : (fp ++ [fn]) <+: xs
    · obtain ⟨zs, rfl⟩ := h1
      refine ⟨(tp ++ [tn]) ++ zs, ?_⟩
      rw [follow_append, follow_concat hfp, hc] at hx
      exact (move_target T.forest hfp hc htp hloop zs).trans hx
    · refine ⟨xs, (move_other T.forest hfp htp h1 ?_).trans hx⟩
      rintro ⟨zs, rfl⟩
      rcases hfree with hfree | ⟨rfl, rfl⟩
      · rw [follow_append, follow_concat htp, hfree] at hx
        cases hx
      · refine h1 ⟨zs, ?_⟩
        rw [T.forest.path_unique hfp htp]

theorem tree_moved (hdir : s.isdir todir) : Tree (moved s fromdir todir f fn tn) where
  root_parent := by
    have hr : s.root ≠ f := fun h => (T.forest.ne_root hc) h.symm
    simpa [moved, hr] using T.root_parent
  root_dir := T.root_dir
  entry := by
    intro p k c hm
    rcases (mem_moved T hc).mp hm with ⟨hm, hne⟩ | ⟨rfl, rfl, rfl⟩
    · simpa [moved, hne] using T.entry hm
    · simp [moved]
  listed := by
    intro c p hp
    by_cases hcf : c = f
    · subst hcf
      have hpp : todir = p := by simpa [moved] using hp
      subst hpp
      exact ⟨tn, by simp [moved], (mem_moved T hc).mpr (.inr ⟨rfl, rfl, rfl⟩)⟩
    · have hp' : s.parent c = some p := by simpa [moved, hcf] using hp
      obtain ⟨k, h1, h2⟩ := T.listed hp'
      exact ⟨k, by simpa [moved, hcf] using h1, (mem_moved T hc).mpr (.inl ⟨h2, hcf⟩)⟩
  keys := moved_keys T hc hfree
  linked := by
    intro c p hp
    rw [linked_moved T hc htodir hfree hloop]
    by_cases hcf : c = f
    · exact hcf ▸ T.childOf_linked hc
    · exact T.linked (by simpa [moved, hcf] using hp : s.parent c = some p)
  owned := by
    intro p hp
    rw [linked_moved T hc htodir hfree hloop]
    obtain ⟨⟨k, c⟩, hm⟩ := List.exists_mem_of_ne_nil _ hp
    rcases (mem_moved T hc).mp hm with ⟨hm, -⟩ | ⟨rfl, -, -⟩
    · exact T.owned (List.ne_nil_of_mem hm)
    · exact ⟨htodir, hdir⟩
  counted := fun h => T.counted ((linked_moved T hc htodir hfree hloop).mp h)
  known := fun h => T.known ((linked_moved T hc htodir hfree hloop).mp h)
  alive := fun h => T.alive ((linked_moved T hc htodir hfree hloop).mp h)

end Relinked

end Ltfs.TreeSteps
