import Ltfs.HandleCounts

namespace Ltfs.RenameTree

open Ltfs.Dentry Ltfs.Fsops Ltfs.Handles Ltfs.DentryTree Ltfs.Lookup Ltfs.CreateSpec Ltfs.TreeSteps
  Ltfs.RenameSpec Ltfs.NamespaceRun Ltfs.HandleCounts Ltfs.Lib.Paths

variable {s s' : Fs} {env : Env} {src dst p q : Path} {fromdir todir f t : Ino} {u : Option Ino}
  {names : List Name}

/-- The directory part of a path: "" and "/" both stand for the root. -/
def dirSteps (names : List Name) : List Name := if names = [[]] then [] else names

/-- The names that lead from the root to the entry of a path. -/
def steps (p : Path) : List Name := dirSteps p.dir ++ [p.name]

/-- The source has gone from its old path to the new one with everything below it, and nothing
else has changed but for a dentry that was at the new path. -/
structure Renamed (s s' : Fs) (p q : Path) : Prop where
  tree : Tree s'
  root : s'.root = s.root
  found : ∃ f, follow (childOf s) s.root (steps p) = some f ∧ resolvePath {} s' q.names = .ok f
  below : ∀ zs, follow (childOf s') s.root (steps q ++ zs) = follow (childOf s) s.root (steps p ++ zs)
  gone : steps p = steps q ∨ follow (childOf s') s.root (steps p) = none
  kept : ∀ xs d, follow (childOf s) s.root xs = some d → ¬ steps p <+: xs → xs ≠ steps q →
    follow (childOf s') s.root xs = some d

/-- The target is a name in a directory, and no copy of a key is lost on the way. -/
def RenameWorks (env : Env) (s : Fs) (p q : Path) : Prop :=
  ∃ todir, resolvePath env.mem.dst s q.dir = .ok todir ∧ s.isdir todir ∧ q.dir ≠ [[]] ∧ q.names ≠ [[]] ∧
    if steps p = steps q then env.mem.dropSrc = true → env.mem.add.key = true
    else env.mem.dropSrc = true ∧ env.mem.add.key = true ∧
      (childOf s todir q.name = none ∨ (env.mem.findDst = true ∧ env.mem.dropDst = true))

theorem resolvePath_steps {mem : WalkMem} {d : Ino} (h : resolvePath mem s names = .ok d) :
    follow (childOf s) s.root (dirSteps names) = some d := by
  by_cases hn : names = [[]]
  · simp only [resolvePath, hn, or_true, if_true] at h
    split at h
    · cases h
    · simpa [dirSteps, hn] using h
  · rw [dirSteps, if_neg hn]
    exact resolvePath_follow hn h

theorem resolve_lengths {key : Nat → Bool} {d c : Ino} (h : resolve key s names d = .ok c) :
    ∀ n ∈ names, ¬ filenameMax < n.length := by
  induction names generalizing d with
  | nil => simp
  | cons n rest ih =>
    simp only [resolve] at h
    split at h
    · cases h
    next hn =>
      split at h
      · cases h
      · intro m hm
        rcases List.mem_cons.mp hm with rfl | hm
        · exact hn
        · exact ih h m hm

theorem resolve_of_follow {d c : Ino} (hlen : ∀ n ∈ names, ¬ filenameMax < n.length)
    (h : follow (childOf s) d names = some c) : resolve (fun _ => true) s names d = .ok c := by
  induction names generalizing d with
  | nil => simpa [resolve] using h
  | cons n rest ih =>
    simp only [follow, Option.bind_eq_some_iff] at h
    obtain ⟨e, he, h⟩ := h
    simp only [resolve, if_neg (hlen n (List.mem_cons_self ..)), found, if_true, he]
    exact ih (fun m hm => hlen m (List.mem_cons_of_mem _ hm)) h

theorem addKey_outcome {mem : AddMem} {list : Entries} {name : Name} {d : Ino}
    (h : (fsAddKeyToHashTable mem list name d).2 = .ok ()) :
    (mem.key = true ∧ (fsAddKeyToHashTable mem list name d).1 = (name, d) :: list) ∨
      (mem.key = false ∧ (fsAddKeyToHashTable mem list name d).1 = list) := by
  simp only [fsAddKeyToHashTable] at h ⊢
  cases he : mem.entry with
  | false => simp [he] at h
  | true =>
    cases hk : mem.key with
    | false => exact .inr ⟨rfl, by simp⟩
    | true =>
      cases list with
      | nil =>
        cases ht : mem.table with
        | false => simp [he, hk, ht] at h
        | true => exact .inl ⟨rfl, by simp⟩
      | cons e es => exact .inl ⟨rfl, by simp⟩

/-- How a call that has found its source ends: the entry of the target or of the source is missed
because its key cannot be copied, or the new entry is put in the table. -/
inductive RenameEnd (env : Env) (s : Fs) (p q : Path) (fromdir todir f : Ino) (u : Option Ino) :
    Fs × Except Error Unit → Prop
  | keepsTarget (t : Ino) (M : Multiset Ino) (ops : List LockOp) (ht : distinct u f = some t)
      (hk : env.mem.dropDst = false) :
      RenameEnd env s p q fromdir todir f u (((dropped s todir t).withHandles M).withLog ops, .ok ())
  | keepsSource (M : Multiset Ino) (ops : List LockOp) (hd : distinct u f = none ∨ env.mem.dropDst = true)
      (hk : env.mem.dropSrc = false) : RenameEnd env s p q fromdir todir f u
        (((base s todir q.name (distinct u f)).withHandles M).withLog ops, .ok ())
  | adds (M : Multiset Ino) (ops : List LockOp) (hd : distinct u f = none ∨ env.mem.dropDst = true)
      (hk : env.mem.dropSrc = true) : RenameEnd env s p q fromdir todir f u
        (((relinked (base s todir q.name (distinct u f)) fromdir todir f p.name q.name
            (addAnswer env s q fromdir todir f p.name u).1).withHandles M).withLog ops,
          (addAnswer env s q fromdir todir f p.name u).2)

theorem rename_end (T : Tree s) (h : RenameReaches env src dst s p q fromdir todir f u) :
    RenameEnd env s p q fromdir todir f u (ltfsFsopsRename env src dst s) := by
  by_cases hd : distinct u f = none ∨ env.mem.dropDst = true
  · cases hk : env.mem.dropSrc with
    | false =>
      obtain ⟨ops, -, heq⟩ := rename_keepsSource T h hd hk
      rw [heq]
      exact .keepsSource _ ops hd hk
    | true =>
      obtain ⟨ops, -, heq⟩ := rename_adds T h hd hk
      cases hadd : (addAnswer env s q fromdir todir f p.name u).2 with
      | error e =>
        simp only [hadd] at heq
        rw [heq, ← hadd]
        exact .adds {f} ops hd hk
      | ok _ =>
        simp only [hadd] at heq
        rw [heq, ← hadd, ← withHandles_zero (relinked _ _ _ _ _ _ _)]
        exact .adds 0 ops hd hk
  · rw [not_or, Bool.not_eq_true] at hd
    obtain ⟨t, ht⟩ := Option.ne_none_iff_exists'.mp hd.1
    obtain ⟨ops, -, heq⟩ := rename_keepsTarget T h ht hd.2
    rw [heq]
    exact .keepsTarget t _ ops ht hd.2

theorem rename_reached (T : Tree s) (env : Env) (src dst : Path) :
    (∃ e ops, ltfsFsopsRename env src dst s = (s.withLog ops, .error e)) ∨
      ∃ p q fromdir todir f u, RenameReaches env src dst s p q fromdir todir f u := by
  by_cases he : ∃ p q fromdir todir, RenameEnters env src dst s p q fromdir todir
  · obtain ⟨p, q, fromdir, todir, he⟩ := he
    by_cases hr : ∃ f u, RenameReaches env src dst s p q fromdir todir f u
    · obtain ⟨f, u, hr⟩ := hr
      exact .inr ⟨p, q, fromdir, todir, f, u, hr⟩
    · obtain ⟨e, ops, -, heq⟩ := rename_refused T he (fun f u h => hr ⟨f, u, h⟩)
      exact .inl ⟨e, ops, heq⟩
  · obtain ⟨e, ops, -, heq⟩ := rename_outside T
      (fun p q fromdir todir h => he ⟨p, q, fromdir, todir, h⟩)
    exact .inl ⟨e, ops, heq⟩

theorem tree_handles {b : Fs} (B : Tree b) (M : Multiset Ino) (ops : List LockOp) :
    Tree ((b.withHandles M).withLog ops) := by
  have hsame : SameDentries b ((b.withHandles M).withLog ops) := ⟨rfl, rfl, rfl, rfl, rfl, rfl, rfl, rfl⟩
  exact hsame.tree B (fun c hc => Nat.add_pos_left (B.counted hc) _)

section Reached

variable (T : Tree s) (h : RenameReaches env src dst s p q fromdir todir f u)
include h

theorem source_steps : follow (childOf s) s.root (dirSteps p.dir) = some fromdir := resolvePath_steps h.srcDir

theorem target_steps : follow (childOf s) s.root (dirSteps q.dir) = some todir := resolvePath_steps h.dstDir

theorem follow_source : follow (childOf s) s.root (steps p) = some f := by
  rw [steps, follow_concat (source_steps h)]
  exact reaches_source h

include T

theorem steps_eq_iff : steps p = steps q ↔ todir = fromdir ∧ q.name = p.name := by
  constructor
  · intro he
    obtain ⟨h1, h2⟩ := List.append_inj' he rfl
    have hto := target_steps h
    rw [← h1, source_steps h] at hto
    exact ⟨(Option.some.inj hto).symm, (List.singleton_inj.mp h2).symm⟩
  · rintro ⟨rfl, hn⟩
    rw [steps, steps, T.forest.path_unique (source_steps h) (target_steps h), hn]

/-- What stands at the target is the source itself only if both paths are the same. -/
theorem target_ne_source (hne : steps p ≠ steps q) (ht : childOf s todir q.name = some t) : t ≠ f := by
  rintro rfl
  exact hne ((steps_eq_iff T h).mpr (T.forest.unique ht (reaches_source h)))

theorem distinct_target (hne : steps p ≠ steps q) (hk : env.mem.findDst = true) :
    distinct u f = childOf s todir q.name := by
  have hu : u = childOf s todir q.name := by simpa [found, hk] using (looked_ok h.found).2.1
  rw [hu, distinct, if_neg]
  intro ht
  exact target_ne_source T h hne ht rfl

theorem distinct_same (he : steps p = steps q) : distinct u f = none := by
  obtain ⟨rfl, hn⟩ := (steps_eq_iff T h).mp he
  have hu := (looked_ok h.found).2.1
  rw [hn] at hu
  cases hk : env.mem.findDst with
  | false => simp [hu, found, hk, distinct]
  | true => simp [hu, found, hk, distinct, reaches_source h]

/-- Taking the replaced dentry out does not change what the move leaves. -/
theorem childOf_base (ht : distinct u f = childOf s todir q.name ∨ steps p = steps q) :
    childOf (moved (base s todir q.name (distinct u f)) fromdir todir f p.name q.name) =
      move (childOf s) fromdir p.name todir q.name f := by
  cases hd : distinct u f with
  | none =>
    refine childOf_moved T (reaches_source h) ?_
    rcases ht with ht | ht
    · exact .inl (ht.symm.trans hd)
    · exact .inr ((steps_eq_iff T h).mp ht)
  | some t =>
    obtain ⟨h1, h2, -, h4, h5, -⟩ := reaches_target T h hd
    obtain ⟨hc', -, hfree, -⟩ :=
      after_removed T (reaches_source h) (reaches_dirs T h).2 h1 h2 h4 h5 (reaches_loop T h)
    rw [base, childOf_moved (tree_removed T h1 h5) hc' (.inl hfree)]
    funext d n
    simp only [move]
    split
    · rfl
    next hn =>
      split
      · rfl
      · apply Option.ext
        intro c
        rw [childOf_removed T h1]
        constructor
        · exact And.left
        · intro hc
          refine ⟨hc, ?_⟩
          rintro rfl
          exact hn (T.forest.unique hc h1)

omit T in
theorem target_lengths : ∀ n ∈ q.names, ¬ filenameMax < n.length := by
  have hdir : ∀ n ∈ q.dir, ¬ filenameMax < n.length := by
    have hr := h.dstDir
    simp only [resolvePath] at hr
    split at hr
    · cases hr
    · split at hr
      next hn =>
        rcases hn with hn | hn <;> simp [hn]
      · exact resolve_lengths hr
  intro n hn
  rcases List.mem_append.mp hn with hn | hn
  · exact hdir n hn
  · rw [List.mem_singleton.mp hn]
    exact (looked_ok h.found).2.2

omit T in
theorem found_target (hdir : q.dir ≠ [[]]) (hnames : q.names ≠ [[]])
    (hf : follow (childOf s') s'.root (steps q) = some f) : resolvePath {} s' q.names = .ok f := by
  rw [steps, dirSteps, if_neg hdir] at hf
  have hne : ¬ (q.names = [] ∨ q.names = [[]]) := by
    rw [not_or]
    exact ⟨by simp [Path.names], hnames⟩
  simp only [resolvePath, Bool.not_true, Bool.false_eq_true, if_false, if_neg hne]
  exact resolve_of_follow (target_lengths h) hf

/-- The parts of the result that follow from the tables alone. -/
theorem renamed_move (ht : distinct u f = childOf s todir q.name ∨ steps p = steps q)
    (hchild : childOf s' = move (childOf s) fromdir p.name todir q.name f) :
    (∀ zs, follow (childOf s') s.root (steps q ++ zs) = follow (childOf s) s.root (steps p ++ zs)) ∧
      (steps p = steps q ∨ follow (childOf s') s.root (steps p) = none) ∧
      ∀ xs d, follow (childOf s) s.root xs = some d → ¬ steps p <+: xs → xs ≠ steps q →
        follow (childOf s') s.root xs = some d := by
  have hfp := source_steps h
  have htp := target_steps h
  have hsrc := reaches_source h
  -- nothing lies below a dentry that is replaced
  have htarget : ∀ t, childOf s todir q.name = some t → steps p ≠ steps q →
      s.childList t = [] ∧ ∀ zs, follow (childOf s) t zs ≠ some fromdir := by
    intro t hc hne
    have hd := ht.resolve_right hne
    obtain ⟨-, -, -, -, h5, h6⟩ := reaches_target T h (hd.trans hc)
    exact ⟨h5, h6⟩
  rw [hchild]
  refine ⟨?_, ?_, ?_⟩
  · intro zs
    rw [steps, move_target T.forest hfp hsrc htp (reaches_loop T h), follow_append, follow_source h]
    rfl
  · by_cases he : steps p = steps q
    · exact .inl he
    · refine .inr (move_source T.forest hfp htp ?_ ?_)
      · rintro ⟨zs, hz⟩
        rw [← hz, follow_append, follow_concat htp, Option.bind_eq_some_iff] at hfp
        obtain ⟨t, hc, hz⟩ := hfp
        exact (htarget t hc he).2 zs hz
      · rintro ⟨h1, h2⟩
        exact he ((steps_eq_iff T h).mpr ⟨h1.symm, h2.symm⟩)
  · intro xs d hx hp hq
    rw [move_other T.forest hfp htp hp, hx]
    rintro ⟨zs, rfl⟩
    rw [follow_append, follow_concat htp, Option.bind_eq_some_iff] at hx
    obtain ⟨t, hc, hz⟩ := hx
    have he : steps p ≠ steps q := fun he => hp ⟨zs, by rw [he, steps]⟩
    cases zs with
    | nil => exact hq (List.append_nil _)
    | cons k zs => simp [follow, childOf_nil (htarget t hc he).1] at hz

omit T h in
/-- A rename to the same entry that finds no memory to do anything. -/
theorem renamed_idle (he : steps p = steps q) (hchild : childOf s' = childOf s) :
    (∀ zs, follow (childOf s') s.root (steps q ++ zs) = follow (childOf s) s.root (steps p ++ zs)) ∧
      (steps p = steps q ∨ follow (childOf s') s.root (steps p) = none) ∧
      ∀ xs d, follow (childOf s) s.root xs = some d → ¬ steps p <+: xs → xs ≠ steps q →
        follow (childOf s') s.root xs = some d := by
  rw [hchild, he]
  exact ⟨fun _ => rfl, .inl rfl, fun _ _ hx _ _ => hx⟩

omit T h in
/-- A target that is found afterwards is a name in a directory. -/
theorem proper_of_renamed (R : Renamed s s' p q) : q.dir ≠ [[]] ∧ q.names ≠ [[]] := by
  obtain ⟨f', hf', hfound⟩ := R.found
  have hq : follow (childOf s') s'.root (steps q) = some f' := by
    have hb := R.below []
    rw [List.append_nil, List.append_nil, hf'] at hb
    rw [R.root, hb]
  have hnames : q.names ≠ [[]] := by
    intro hn
    simp only [resolvePath, hn, or_true, if_true, Bool.not_true, Bool.false_eq_true, if_false] at hfound
    rw [← Except.ok.inj hfound] at hq
    have hnil := R.tree.forest.no_cycle reached_root hq
    simp [steps] at hnil
  refine ⟨?_, hnames⟩
  intro hd
  have hpath := R.tree.forest.path_unique (resolvePath_follow hnames hfound) hq
  simp [Path.names, steps, dirSteps, hd] at hpath

theorem base_follow : follow (childOf (base s todir q.name (distinct u f))) s.root (steps p) = some f := by
  have hroot : (base s todir q.name (distinct u f)).root = s.root := by
    cases distinct u f <;> rfl
  obtain ⟨xs, hx⟩ := (base_dirs T h).1
  rw [hroot] at hx
  have hsub : ∀ d k c, childOf (base s todir q.name (distinct u f)) d k = some c → childOf s d k = some c := by
    intro d k c hc
    cases hd : distinct u f with
    | none => rwa [hd] at hc
    | some t =>
      rw [hd] at hc
      exact ((childOf_removed T (reaches_target T h hd).1).mp hc).1
  have hxs : xs = dirSteps p.dir := T.forest.path_unique (follow_mono hsub hx) (source_steps h)
  rw [steps, ← hxs, follow_concat hx]
  exact base_source T h

theorem moved_tree (ht : distinct u f = childOf s todir q.name ∨ steps p = steps q) (hdir : s.isdir todir) :
    Tree (moved (base s todir q.name (distinct u f)) fromdir todir f p.name q.name) := by
  cases hd : distinct u f with
  | none =>
    refine tree_moved T (reaches_source h) (reaches_dirs T h).2 ?_ (reaches_loop T h) hdir
    rcases ht with ht | ht
    · exact .inl (ht.symm.trans hd)
    · exact .inr ((steps_eq_iff T h).mp ht)
  | some t =>
    obtain ⟨h1, h2, -, h4, h5, -⟩ := reaches_target T h hd
    obtain ⟨hc', hto', hfree, hloop'⟩ :=
      after_removed T (reaches_source h) (reaches_dirs T h).2 h1 h2 h4 h5 (reaches_loop T h)
    exact tree_moved (tree_removed T h1 h5) hc' hto' (.inl hfree) hloop' hdir

theorem works_target (hto : env.mem.dropSrc = true → steps p ≠ steps q → childOf s todir q.name = none ∨
    (env.mem.findDst = true ∧ env.mem.dropDst = true)) (hk : env.mem.dropSrc = true) :
    distinct u f = childOf s todir q.name ∨ steps p = steps q := by
  by_cases he : steps p = steps q
  · exact .inr he
  · left
    rcases hto hk he with hn | ⟨hf, -⟩
    · have hu := (looked_ok h.found).2.1
      have hnone : found env.mem.findDst s todir q.name = none := by
        simp only [found, hn]
        exact ite_self _
      rw [hn, hu, hnone]
      rfl
    · exact distinct_target T h he hf

theorem renamed_of_works (W : RenameWorks env s p q)
    (hend : RenameEnd env s p q fromdir todir f u (s', .ok ())) : Renamed s s' p q := by
  obtain ⟨todir', hto, hdir, hd, hn, hmem⟩ := W
  obtain rfl : todir = todir' := Except.ok.inj (h.dstDir.symm.trans hto)
  have hroot : ∀ v, (base s todir q.name v).root = s.root := fun v => by cases v <;> rfl
  generalize hr : (s', Except.ok ()) = r at hend
  cases hend with
  | keepsTarget t M ops ht hk =>
    obtain ⟨h1, h2, -⟩ := reaches_target T h ht
    have he : steps p ≠ steps q := fun he => by simp [distinct_same T h he] at ht
    rw [if_neg he, h1] at hmem
    simp [hk] at hmem
  | keepsSource M ops hd' hk =>
    have he : steps p = steps q := by
      by_contra he
      rw [if_neg he] at hmem
      simp [hk] at hmem
    rw [distinct_same T h he] at hr
    obtain rfl : s' = (s.withHandles M).withLog ops := (Prod.mk.inj hr).1
    have hchild : childOf ((s.withHandles M).withLog ops) = childOf s := rfl
    obtain ⟨h1, h2, h3⟩ := renamed_idle he hchild
    have hf := follow_source h
    rw [he] at hf
    exact ⟨tree_handles T M ops, rfl, ⟨f, follow_source h, found_target h hd hn hf⟩, h1, h2, h3⟩
  | adds M ops hd' hk =>
    have hkey : env.mem.add.key = true := by
      by_cases he : steps p = steps q
      · rw [if_pos he] at hmem
        exact hmem hk
      · rw [if_neg he] at hmem
        exact hmem.2.1
    have ht := works_target T h (fun _ he => by rw [if_neg he] at hmem; exact hmem.2.2) hk
    obtain ⟨hs, hadd⟩ := Prod.mk.inj hr
    have hes := ((addKey_outcome hadd.symm).resolve_right (by simp [hkey])).2
    rw [addAnswer, hes] at hs
    have hchild : childOf s' = move (childOf s) fromdir p.name todir q.name f := by
      rw [hs, ← childOf_base T h ht]
      rfl
    have hroot' : s'.root = s.root := by rw [hs]; exact hroot _
    obtain ⟨h1, h2, h3⟩ := renamed_move T h ht hchild
    have hf : follow (childOf s') s'.root (steps q) = some f := by
      have hb := h1 []
      rw [List.append_nil, List.append_nil, follow_source h] at hb
      rw [hroot', hb]
    refine ⟨?_, hroot', ⟨f, follow_source h, found_target h hd hn hf⟩, h1, h2, h3⟩
    rw [hs]
    exact tree_handles (moved_tree T h ht hdir) M ops

theorem works_of_renamed (hend : RenameEnd env s p q fromdir todir f u (s', .ok ()))
    (R : Renamed s s' p q) : RenameWorks env s p q := by
  obtain ⟨hd, hn⟩ := proper_of_renamed R
  have hq : follow (childOf s') s.root (steps q) = some f := by
    have hb := R.below []
    rwa [List.append_nil, List.append_nil, follow_source h] at hb
  generalize hr : (s', Except.ok ()) = r at hend
  cases hend with
  | keepsTarget t M ops ht hk =>
    -- the entry of the target is still there, without a parent
    obtain rfl : s' = ((dropped s todir t).withHandles M).withLog ops := (Prod.mk.inj hr).1
    have hpar := (R.tree.entry (mem_of_childOf (reaches_target T h ht).1)).2
    simp [dropped] at hpar
  | keepsSource M ops hd' hk =>
    obtain rfl : s' = ((base s todir q.name (distinct u f)).withHandles M).withLog ops := (Prod.mk.inj hr).1
    have he : steps p = steps q := by
      refine R.gone.resolve_right ?_
      intro hnone
      have hf : follow (childOf (base s todir q.name (distinct u f))) s.root (steps p) = none := hnone
      simp [base_follow T h] at hf
    obtain ⟨rfl, -⟩ := (steps_eq_iff T h).mp he
    refine ⟨todir, h.dstDir, T.parent_isdir (reaches_source h), hd, hn, ?_⟩
    rw [if_pos he]
    simp [hk]
  | adds M ops hd' hk =>
    obtain ⟨hs, hadd⟩ := Prod.mk.inj hr
    rcases addKey_outcome hadd.symm with ⟨hkey, hes⟩ | ⟨hkey, hes⟩
    · rw [addAnswer, hes] at hs
      have hmem : ∀ {d k c}, (k, c) ∈ s'.childList d ↔
          (k, c) ∈ (moved (base s todir q.name (distinct u f)) fromdir todir f p.name q.name).childList d := by
        rw [hs]
        rfl
      have hself : (q.name, f) ∈ s'.childList todir :=
        hmem.mpr ((mem_moved (base_tree T h) (base_source T h)).mpr (.inr ⟨rfl, rfl, rfl⟩))
      have hdir : s.isdir todir := by
        have h1 := (R.tree.owned (List.ne_nil_of_mem hself)).2
        rw [hs] at h1
        cases hu : distinct u f <;> rw [hu] at h1 <;> exact h1
      refine ⟨todir, h.dstDir, hdir, hd, hn, ?_⟩
      by_cases he : steps p = steps q
      · rw [if_pos he]
        exact fun _ => hkey
      · rw [if_neg he]
        refine ⟨hk, hkey, ?_⟩
        cases hc : childOf s todir q.name with
        | none => exact .inl rfl
        | some t =>
          have htf := target_ne_source T h he hc
          right
          cases hf : env.mem.findDst with
          | false =>
            -- two entries of one name
            have hu : distinct u f = none := by
              have hu := (looked_ok h.found).2.1
              simp only [found, hf, Bool.false_eq_true, if_false] at hu
              simp [distinct, hu]
            have hother : (q.name, t) ∈ s'.childList todir := by
              refine hmem.mpr ((mem_moved (base_tree T h) (base_source T h)).mpr (.inl ⟨?_, htf⟩))
              rw [hu]
              exact mem_of_childOf hc
            have h1 := (find_eq_some (R.tree.keys todir)).mpr hself
            have h2 := (find_eq_some (R.tree.keys todir)).mpr hother
            rw [h1] at h2
            exact absurd (Prod.mk.inj (Option.some.inj h2)).2.symm htf
          | true =>
            refine ⟨rfl, hd'.resolve_left ?_⟩
            rw [distinct_target T h he hf, hc]
            simp
    · -- the source is in no table any more
      rw [addAnswer, hes] at hs
      obtain ⟨d, -, hc⟩ := follow_concat_inv hq
      have hmem := mem_of_childOf hc
      have hlist : s'.childList d =
          otherEntries (base s todir q.name (distinct u f)) fromdir d f p.name := by
        rw [hs]
        simp only [Fs.withLog_childList, Fs.withHandles_childList, relinked_childList, otherEntries,
          Function.update_eq_self]
      rw [hlist] at hmem
      exact absurd rfl ((mem_otherEntries (base_tree T h) (base_source T h)).mp hmem).2

end Reached

/-- A rename that reports success has done what it should exactly when no copy of a key was lost and
the target is a name in a directory. -/
theorem rename_succeeds_iff (T : Tree s) (hp : env.formatSource src = .ok p) (hq : env.format dst = .ok q)
    (h : ltfsFsopsRename env src dst s = (s', .ok ())) : Renamed s s' p q ↔ RenameWorks env s p q := by
  rcases rename_reached T env src dst with ⟨e, ops, heq⟩ | ⟨p', q', fromdir, todir, f, u, hr⟩
  · rw [h] at heq
    cases (Prod.mk.inj heq).2
  · obtain rfl : p = p' := Except.ok.inj (hp.symm.trans hr.formatSrc)
    obtain rfl : q = q' := Except.ok.inj (hq.symm.trans hr.formatDst)
    have hend := rename_end T hr
    rw [h] at hend
    exact ⟨works_of_renamed T hr hend, fun W => renamed_of_works T hr W hend⟩

theorem rename_succeeds_moves :
    Renamed oneFile (ltfsFsopsRename plainEnv ⟨[], ['a']⟩ ⟨[], ['b']⟩ oneFile).1 ⟨[], ['a']⟩ ⟨[], ['b']⟩ := by
  refine (rename_succeeds_iff oneFile_tree rfl rfl (Prod.ext rfl ?_)).mpr ?_
  · rfl
  · refine ⟨0, rfl, rfl, by decide, by decide, ?_⟩
    rw [if_neg (by decide)]
    exact ⟨rfl, rfl, .inl (by decide +kernel)⟩

/-- The key for the entry of "/a" cannot be copied: the call reports success and "/a" stays. -/
theorem rename_succeeds_idle :
    let r := ltfsFsopsRename { plainEnv with mem := { dropSrc := false } } ⟨[], ['a']⟩ ⟨[], ['b']⟩ oneFile
    Tree oneFile ∧ r.2 = .ok () ∧ ¬ Renamed oneFile r.1 ⟨[], ['a']⟩ ⟨[], ['b']⟩ := by
  refine ⟨oneFile_tree, rfl, ?_⟩
  intro R
  have hgone := R.gone
  revert hgone
  decide +kernel

end Ltfs.RenameTree
