import Ltfs.SymlinkPath
import Mathlib.Data.List.Flatten

namespace Ltfs.SymlinkSpec

open SymlinkPath Lib.Lexical Split

/-- A component that is neither `.` nor `..` -/
def Plain (c : List Char) : Prop :=
  c ≠ ['.'] ∧ c ≠ ['.', '.']

instance : DecidablePred Plain :=
  fun _ => inferInstanceAs (Decidable (_ ∧ _))

def Proper (c : List Char) : Prop :=
  c ≠ [] ∧ Plain c

instance : DecidablePred Proper :=
  fun _ => inferInstanceAs (Decidable (_ ∧ _))

/-- The components without the empty ones. -/
def full (cs : List (List Char)) : List (List Char) :=
  cs.filter (· ≠ [])

variable {cs base ts place : List (List Char)} {c t : List Char} {s : List (Step (List Char))}

theorem mem_full : c ∈ full cs ↔ c ∈ cs ∧ c ≠ [] := by
  rw [full, List.mem_filter, decide_eq_true_iff]

theorem full_append (cs ds : List (List Char)) : full (cs ++ ds) = full cs ++ full ds :=
  List.filter_append ..

theorem full_eq_self (h : ∀ c ∈ cs, c ≠ []) : full cs = cs :=
  List.filter_eq_self.mpr fun c hc => by simpa using h c hc

theorem stepOf_proper (h : Proper c) : stepOf c = .into c := by
  obtain ⟨h₀, h₁, h₂⟩ := h
  simp [stepOf, h₀, h₁, h₂]

theorem stepOf_eq_into (h : stepOf c = .into t) : Proper c ∧ c = t := by
  rw [stepOf] at h
  split at h
  · cases h
  · next hs =>
    split at h
    · cases h
    · next hu =>
      rw [not_or] at hs
      exact ⟨⟨hs.1, hs.2, hu⟩, Step.into.inj h⟩

theorem proper_of_into (h : .into c ∈ cs.map stepOf) : Proper c := by
  obtain ⟨d, -, hd⟩ := List.mem_map.mp h
  obtain ⟨hp, rfl⟩ := stepOf_eq_into hd
  exact hp

@[simp] theorem stepOf_nil : stepOf [] = .stay := rfl

/-- Empty components lead nowhere. -/
theorem run_full (cs : List (List Char)) : run place ((full cs).map stepOf) = run place (cs.map stepOf) := by
  induction cs generalizing place with
  | nil => rfl
  | cons c cs ih =>
    by_cases hc : c = []
    · subst hc
      rw [full, List.filter_cons_of_neg (by simp), List.map_cons, stepOf_nil, run_stay]
      exact ih
    · rw [full, List.filter_cons_of_pos (by simpa using hc), List.map_cons, List.map_cons]
      have hrest : ∀ p, run p ((cs.filter (· ≠ [])).map stepOf) = run p (cs.map stepOf) := fun p => ih
      rw [run_cons, @run_cons _ place (cs.map stepOf)]
      simp only [hrest]

/-- Components other than `.` and `..` are gone into one after the other. -/
theorem run_plain (h : ∀ c ∈ cs, Plain c) : run place (cs.map stepOf) = some (place ++ full cs) := by
  rw [← run_full, ← run_intos]
  congr 1
  refine List.map_congr_left fun c hc => ?_
  obtain ⟨hm, hne⟩ := mem_full.mp hc
  exact stepOf_proper ⟨hne, h c hm⟩

theorem weight_le (w : List Char → Nat) (cs : List (List Char)) : weight w (cs.map stepOf) ≤ (cs.map w).sum := by
  induction cs with
  | nil => exact Nat.le_refl _
  | cons c cs ih =>
    rw [List.map_cons, List.map_cons, List.sum_cons]
    cases hc : stepOf c with
    | stay =>
      simp only [weight, List.map_cons, List.sum_cons] at ih ⊢
      omega
    | up =>
      simp only [weight, List.map_cons, List.sum_cons] at ih ⊢
      omega
    | into a =>
      obtain ⟨-, rfl⟩ := stepOf_eq_into hc
      simp only [weight, List.map_cons, List.sum_cons] at ih ⊢
      omega

/-- Only names count as entries. -/
theorem proper_of_weight (h : cs.length ≤ weight (fun _ => 1) (cs.map stepOf)) : ∀ c ∈ cs, Proper c := by
  induction cs with
  | nil => exact nofun
  | cons c cs ih =>
    have hle := weight_le (fun _ => 1) cs
    have hlen : (cs.map fun _ => 1).sum = cs.length := by simp
    rw [hlen] at hle
    rw [List.map_cons, List.length_cons] at h
    cases hc : stepOf c with
    | stay =>
      rw [hc] at h
      simp only [weight, List.map_cons, List.sum_cons] at h hle
      omega
    | up =>
      rw [hc] at h
      simp only [weight, List.map_cons, List.sum_cons] at h hle
      omega
    | into a =>
      rw [hc] at h
      simp only [weight, List.map_cons, List.sum_cons] at h ih
      exact List.forall_mem_cons.mpr ⟨(stepOf_eq_into hc).1, ih (by omega)⟩

/-- The levels that components leave above where they start. -/
def climbOf (cs : List (List Char)) : Nat :=
  climb (cs.map stepOf)

def namesOf (cs : List (List Char)) : List (List Char) :=
  names (cs.map stepOf)

theorem run_steps (base ts : List (List Char)) : run base (ts.map stepOf) =
    if climbOf ts ≤ base.length then some (base.take (base.length - climbOf ts) ++ namesOf ts) else none :=
  run_eq base (ts.map stepOf)

/-- The tokens `ts`, and then `t` as it is, give the right names from `base`: they climb out of the
volume, or nothing but plain names is below the root and none of those that are left is missing. -/
def Sound (base ts : List (List Char)) (t : List Char) : Prop :=
  base.length < climbOf ts ∨
    (Plain t ∧ (∀ c ∈ base, Plain c) ∧ ∀ c ∈ base.drop (base.length - climbOf ts), c ≠ [])

/-- What the loop makes of the components below the root and the tokens. -/
def walked (base ts : List (List Char)) (t : List Char) : Option (List (List Char)) :=
  (run base (ts.map stepOf)).map fun place => full (place ++ [t])

theorem full_namesOf (ts : List (List Char)) : full (namesOf ts) = namesOf ts :=
  full_eq_self fun c hc => (mem_names (fun _ ha => proper_of_into ha) c hc : Proper c).1

theorem full_singleton (ht : t ≠ []) : full [t] = [t] :=
  full_eq_self fun _ hc => List.mem_singleton.mp hc ▸ ht

theorem walked_none (h : base.length < climbOf ts) : walked base ts t = none := by
  rw [walked, run_steps, if_neg (Nat.not_le.mpr h)]
  rfl

variable {kept left : List (List Char)}

theorem walked_eq (ht : t ≠ []) (h : left.length = climbOf ts) :
    walked (kept ++ left) ts t = some (full kept ++ (namesOf ts ++ [t])) := by
  have hle : climbOf ts ≤ (kept ++ left).length := by
    rw [List.length_append, h]
    exact Nat.le_add_left _ _
  rw [walked, run_steps, if_pos hle, List.length_append, h, Nat.add_sub_cancel, List.take_left, Option.map_some,
    full_append, full_append, full_namesOf, full_singleton ht, List.append_assoc]

theorem resolution_eq (base ts : List (List Char)) (t : List Char) :
    run [] ((base ++ ts ++ [t]).map stepOf) =
      (run [] (base.map stepOf)).bind fun p => (run p (ts.map stepOf)).bind fun q => run q [stepOf t] := by
  rw [List.map_append, List.map_append, run_append, run_append, Option.bind_assoc]
  rfl

theorem proper_of_resolution (h : run [] (cs.map stepOf) = some place) : ∀ c ∈ place, Proper c :=
  mem_run (fun _ hb => absurd hb List.not_mem_nil) (fun _ ha => proper_of_into ha) h

theorem length_run_le (h : run base (cs.map stepOf) = some place) :
    place.length ≤ base.length + weight (fun _ => 1) (cs.map stepOf) := by
  have hsum := sum_run_le (fun _ => 1) h
  simpa using hsum

theorem weight_le_length (cs : List (List Char)) : weight (fun _ => 1) (cs.map stepOf) ≤ cs.length := by
  have hle := weight_le (fun _ => 1) cs
  simpa using hle

/-- More levels than there are names lead out of the volume. -/
theorem resolution_none (h : base.length < climbOf ts) : run [] ((base ++ ts ++ [t]).map stepOf) = none := by
  rw [resolution_eq]
  cases hb : run [] (base.map stepOf) with
  | none => rfl
  | some p =>
    have hlen := length_run_le hb
    have hw := weight_le_length base
    have hp : ¬ climbOf ts ≤ p.length := by
      rw [List.length_nil] at hlen
      omega
    rw [Option.bind_some, run_steps, if_neg hp]
    rfl

theorem plain_of_full (h : ∀ c ∈ full cs, Proper c) : ∀ c ∈ cs, Plain c := by
  intro c hc
  by_cases he : c = []
  · rw [he]
    decide
  · exact (h c (mem_full.mpr ⟨hc, he⟩)).2

/-- The names that the tokens leave have to be there: fewer of them lead further up. -/
theorem weight_of_run (hu : run (full kept) (left.map stepOf) = some place)
    (hr : (run place (ts.map stepOf)).bind (fun q => run q [stepOf t]) =
      some (full kept ++ (namesOf ts ++ [t]))) (ht : Proper t) :
    climbOf ts ≤ weight (fun _ => 1) (left.map stepOf) := by
  have hlen := length_run_le hu
  rw [run_steps] at hr
  split at hr
  · rw [Option.bind_some, stepOf_proper ht, run_into, run_nil, Option.some.injEq] at hr
    have hl := congrArg List.length hr
    simp only [List.length_append, List.length_take, List.length_singleton] at hl
    omega
  · cases hr

theorem sound_of_resolution (ht : t ≠ []) (h : left.length = climbOf ts)
    (hr : run [] ((kept ++ left ++ ts ++ [t]).map stepOf) = walked (kept ++ left) ts t) :
    Plain t ∧ (∀ c ∈ kept, Plain c) ∧ ∀ c ∈ left, Proper c := by
  rw [walked_eq ht h] at hr
  have hproper := proper_of_resolution hr
  have htp : Proper t := hproper t (by simp)
  have hkept : ∀ c ∈ kept, Plain c := plain_of_full fun c hc => hproper c (List.mem_append_left _ hc)
  refine ⟨htp.2, hkept, proper_of_weight ?_⟩
  rw [resolution_eq, List.map_append, run_append, run_plain hkept, List.nil_append, Option.bind_some] at hr
  cases hu : run (full kept) (left.map stepOf) with
  | none =>
    rw [hu] at hr
    cases hr
  | some p =>
    rw [hu, Option.bind_some] at hr
    rw [h]
    exact weight_of_run hu hr htp

theorem resolution_of_sound (ht : Proper t) (h : left.length = climbOf ts) (hkept : ∀ c ∈ kept, Plain c)
    (hleft : ∀ c ∈ left, Proper c) :
    run [] ((kept ++ left ++ ts ++ [t]).map stepOf) = walked (kept ++ left) ts t := by
  have hbase : ∀ c ∈ kept ++ left, Plain c := by
    intro c hc
    rcases List.mem_append.mp hc with hc | hc
    · exact hkept c hc
    · exact (hleft c hc).2
  have hfull : full (kept ++ left) = full kept ++ left := by
    rw [full_append, full_eq_self fun c hc => (hleft c hc).1]
  have hle : climbOf ts ≤ (full kept ++ left).length := by
    rw [List.length_append, h]
    exact Nat.le_add_left _ _
  rw [walked_eq ht.1 h, resolution_eq, run_plain hbase, List.nil_append, Option.bind_some, hfull, run_steps,
    if_pos hle, List.length_append, h, Nat.add_sub_cancel, List.take_left, Option.bind_some, stepOf_proper ht,
    run_into, run_nil, List.append_assoc]

/-- The loop over the components is right exactly in the sound cases. -/
theorem walked_right_iff (ht : t ≠ []) :
    run [] ((base ++ ts ++ [t]).map stepOf) = walked base ts t ↔ Sound base ts t := by
  by_cases hlt : base.length < climbOf ts
  · rw [resolution_none hlt, walked_none hlt]
    exact iff_of_true rfl (.inl hlt)
  · obtain ⟨kept, left, rfl, hl, hd⟩ : ∃ kept left, base = kept ++ left ∧ left.length = climbOf ts ∧
        base.drop (base.length - climbOf ts) = left := by
      refine ⟨_, _, (List.take_append_drop (base.length - climbOf ts) base).symm, ?_, rfl⟩
      rw [List.length_drop]
      omega
    rw [Sound, or_iff_right hlt, hd]
    constructor
    · intro hr
      obtain ⟨hp, hkept, hleft⟩ := sound_of_resolution ht hl hr
      refine ⟨hp, fun c hc => ?_, fun c hc => (hleft c hc).1⟩
      rcases List.mem_append.mp hc with hc | hc
      · exact hkept c hc
      · exact (hleft c hc).2
    · rintro ⟨hp, hbase, hleft⟩
      exact resolution_of_sound ⟨ht, hp⟩ hl (fun c hc => hbase c (List.mem_append_left _ hc))
        fun c hc => ⟨hleft c hc, hbase c (List.mem_append_right _ hc)⟩

theorem strrchr_none {x : Char} {w : List Char} (h : x ∉ w) : strrchr x w = none := by
  induction w with
  | nil => rfl
  | cons y w ih =>
    rw [List.mem_cons, not_or] at h
    rw [strrchr, ih h.2, if_neg (Ne.symm h.1)]

theorem strrchr_append {x : Char} {w : List Char} (v : List Char) (h : x ∉ w) :
    strrchr x (v ++ x :: w) = some (x :: w) := by
  induction v with
  | nil => rw [List.nil_append, strrchr, strrchr_none h, if_pos rfl]
  | cons y v ih => rw [List.cons_append, strrchr, ih]

theorem cut_append (v w : List Char) : cut (v ++ w) w = v := by
  rw [cut, List.length_append, Nat.add_sub_cancel, List.take_left]

/-- The end of the function: a path is copied if it fits. -/
def sized (size : Nat) (w : List Char) : Outcome :=
  if size < w.length + 1 then .smallBuffer else .ok w

def NoSlash (cs : List (List Char)) : Prop :=
  ∀ c ∈ cs, '/' ∉ c

theorem NoSlash.dropLast (h : NoSlash (base ++ [c])) : NoSlash base ∧ '/' ∉ c :=
  ⟨fun d hd => h d (List.mem_append_left _ hd), h c (by simp)⟩

theorem NoSlash.concat (h : NoSlash base) (hc : '/' ∉ c) : NoSlash (base ++ [c]) := by
  intro d hd
  rcases List.mem_append.mp hd with hd | hd
  · exact h d hd
  · rwa [List.mem_singleton.mp hd]

/-- The work buffer is the path of the components that the loop has come to. -/
theorem walk_eq (size : Nat) (hbase : NoSlash base) (hts : NoSlash ts) (hne : ∀ c ∈ ts, c ≠ []) :
    walk size (behind '/' base) (ts ++ [t]) =
      match run base (ts.map stepOf) with
      | none => .ok []
      | some place => sized size (behind '/' (place ++ [t])) := by
  induction ts generalizing base with
  | nil =>
    rw [List.nil_append, walk, List.map_nil, run_nil]
    simp only [behind_concat]
    rfl
  | cons c ts ih =>
    obtain ⟨hc, hts⟩ := List.forall_mem_cons.mp hts
    obtain ⟨hcne, hne⟩ := List.forall_mem_cons.mp hne
    obtain ⟨d, ds, hd⟩ : ∃ d ds, ts ++ [t] = d :: ds := by
      cases ts with
      | nil => exact ⟨_, _, rfl⟩
      | cons d ts => exact ⟨_, _, rfl⟩
    rw [List.cons_append, hd, walk, ← hd, List.map_cons]
    by_cases hup : c = ['.', '.']
    · rw [if_pos hup, hup]
      have hs : stepOf ['.', '.'] = .up := rfl
      rw [hs]
      cases base using List.reverseRecOn with
      | nil =>
        rw [strrchr_none (by simp [behind])]
        rfl
      | append_singleton base b =>
        obtain ⟨hbase, hb⟩ := hbase.dropLast
        rw [behind_concat, strrchr_append _ hb, run_concat_up]
        simp only [cut_append]
        exact ih hbase hts hne
    · rw [if_neg hup]
      by_cases hdot : c = ['.']
      · rw [if_neg (not_not.mpr hdot), hdot]
        have hs : stepOf ['.'] = .stay := rfl
        rw [hs, run_stay]
        exact ih hbase hts hne
      · rw [if_pos hdot, stepOf_proper ⟨hcne, hdot, hup⟩, run_into, ← behind_concat]
        exact ih (hbase.concat hc) hts hne

theorem components_behind {cs : List (List Char)} (h : NoSlash (c :: cs)) :
    components (behind '/' (c :: cs)) = c :: cs := by
  obtain ⟨hc, hcs⟩ := List.forall_mem_cons.mp h
  rw [components, behind_cons, List.tail_cons, splitOn_behind hc hcs]

/-- A path is its components, each behind a slash. -/
theorem behind_components {path : List Char} (h : path.head? = some '/') :
    behind '/' (components path) = path ∧ NoSlash (components path) := by
  cases path with
  | nil => cases h
  | cons x path =>
    obtain rfl : x = '/' := by simpa using h
    obtain ⟨p, ps, hsplit, hs, hp, hps⟩ := splitOn_pieces '/' path
    rw [components, List.tail_cons, hsplit]
    exact ⟨by rw [behind_cons, ← hs], List.forall_mem_cons.mpr ⟨hp, hps⟩⟩

theorem shows_behind {r : Option (List (List Char))} (h : NoSlash (base ++ [t])) :
    Shows (behind '/' (base ++ [t])) r ↔ r = some (full (base ++ [t])) := by
  obtain ⟨c, cs, hc⟩ : ∃ c cs, base ++ [t] = c :: cs := by
    cases base with
    | nil => exact ⟨_, _, rfl⟩
    | cons c cs => exact ⟨_, _, rfl⟩
  rw [hc] at h ⊢
  cases r with
  | none => simp [Shows, behind_cons]
  | some ns =>
    rw [Shows, components_behind h, behind_cons]
    simp only [List.head?_cons, true_and, Option.some.injEq]
    exact eq_comm

theorem shows_nil {r : Option (List (List Char))} : Shows [] r ↔ r = none := by
  cases r <;> simp [Shows]

theorem gives_sized {n : Nat} {r : Option (List (List Char))} {w : List Char} (hw : w.length ≤ n) :
    (∀ size, Gives n r size (sized size w)) ↔ Shows w r := by
  constructor
  · intro h
    have hs := h (w.length + 1)
    rwa [sized, if_neg (Nat.lt_irrefl _)] at hs
  · intro h size
    rw [sized]
    by_cases hs : size < w.length + 1
    · rw [if_pos hs]
      exact Nat.le_trans (Nat.le_of_lt_succ hs) hw
    · rw [if_neg hs]
      exact h

theorem length_behind_run (h : run base (ts.map stepOf) = some place) :
    (behind '/' place).length ≤ (behind '/' base).length + (behind '/' ts).length := by
  have hsum := sum_run_le (fun c => c.length + 1) h
  have hw := weight_le (fun c => c.length + 1) ts
  rw [length_behind, length_behind, length_behind]
  omega

/-- The loop fits into a buffer of the size of the two paths, and what it leaves there is the path of
the components. -/
theorem gives_walk {n : Nat} {r : Option (List (List Char))} (hbase : NoSlash base) (hts : NoSlash (ts ++ [t]))
    (hne : ∀ c ∈ ts, c ≠ []) (hn : (behind '/' base).length + (behind '/' (ts ++ [t])).length ≤ n) :
    (∀ size, Gives n r size (walk size (behind '/' base) (ts ++ [t]))) ↔ r = walked base ts t := by
  obtain ⟨hts, ht⟩ := hts.dropLast
  simp only [walk_eq _ hbase hts hne, walked]
  cases hrun : run base (ts.map stepOf) with
  | none => simp [Gives, shows_nil]
  | some place =>
    have hplace : NoSlash place := by
      refine mem_run hbase (fun a ha => ?_) hrun
      obtain ⟨c, hc, hs⟩ := List.mem_map.mp ha
      obtain ⟨-, rfl⟩ := stepOf_eq_into hs
      exact hts _ hc
    have hlen := length_behind_run hrun
    rw [Option.map_some, ← shows_behind (hplace.concat ht)]
    apply gives_sized
    rw [behind_concat, List.length_append] at hn ⊢
    omega

/-- The loop over all components of a target, from the last place that it does not look at. -/
theorem gives_tokens {n : Nat} {cs : List (List Char)} (hbase : NoSlash base) (hcs : NoSlash cs)
    (hn : (behind '/' base).length + (behind '/' cs).length ≤ n) (hfull : full cs ≠ []) :
    (∀ size, Gives n (run [] ((base ++ cs).map stepOf)) size (walk size (behind '/' base) (full cs))) ↔
      Sound base (full cs).dropLast ((full cs).getLast hfull) := by
  have hsplit := (full cs).dropLast_append_getLast hfull
  have hmem : ∀ c ∈ full cs, '/' ∉ c ∧ c ≠ [] := fun c hc => ⟨hcs c (mem_full.mp hc).1, (mem_full.mp hc).2⟩
  have hlen : (behind '/' (full cs)).length ≤ (behind '/' cs).length :=
    (List.filter_sublist.flatMap _).length_le
  have hrun : run [] ((base ++ cs).map stepOf) = run [] ((base ++ full cs).map stepOf) := by
    rw [List.map_append, List.map_append, run_append, run_append]
    simp only [run_full]
  have hlast : (full cs).getLast hfull ≠ [] := (hmem _ (List.getLast_mem hfull)).2
  rw [hrun, ← walked_right_iff hlast]
  generalize (full cs).getLast hfull = t at hsplit
  generalize (full cs).dropLast = ts at hsplit
  rw [← hsplit] at hmem hlen ⊢
  rw [← List.append_assoc]
  exact gives_walk hbase (fun c hc => (hmem c hc).1) (fun c hc => (hmem c (List.mem_append_left _ hc)).2)
    (by omega)

/-- The search for `/.` passes over what has no slash. -/
theorem strstr_slash_append {w v : List Char} (hw : '/' ∉ w) : strstr ['/', '.'] (w ++ v) = strstr ['/', '.'] v := by
  induction w with
  | nil => rfl
  | cons x w ih =>
    obtain ⟨hx, hw⟩ := not_or.mp (mt List.mem_cons.mpr hw)
    have hp : ¬ ['/', '.'] <+: x :: (w ++ v) := by
      rw [List.cons_prefix_cons]
      exact fun h => hx h.1
    rw [List.cons_append, strstr, if_neg hp, ih hw]

def Hidden (c : List Char) : Prop :=
  c.head? = some '.'

instance : DecidablePred Hidden :=
  fun _ => inferInstanceAs (Decidable (_ = _))

theorem prefix_slash_dot (v : List Char) (h : v = [] ∨ ∃ u, v = '/' :: u) :
    ['/', '.'] <+: '/' :: (c ++ v) ↔ Hidden c := by
  rw [List.cons_prefix_cons, Hidden]
  cases c with
  | nil =>
    rcases h with rfl | ⟨u, rfl⟩
    · simp
    · simp
  | cons x c => simp [eq_comm]

/-- The search finds the first component that starts with a dot. -/
theorem strstr_behind (h : NoSlash cs) : strstr ['/', '.'] (behind '/' cs) =
    if cs.dropWhile (¬ Hidden ·) = [] then none else some (behind '/' (cs.dropWhile (¬ Hidden ·))) := by
  induction cs with
  | nil => rfl
  | cons c cs ih =>
    obtain ⟨hc, hcs⟩ := List.forall_mem_cons.mp h
    rw [behind_cons, strstr, List.dropWhile_cons]
    have hp := prefix_slash_dot (behind '/' cs) (behind_head cs) (c := c)
    by_cases hd : Hidden c
    · rw [if_pos (hp.mpr hd)]
      simp [hd, behind_cons]
    · rw [if_neg (mt hp.mp hd), strstr_slash_append hc, ih hcs]
      simp [hd]

/-- The components that a target is resolved against by the code, and those it goes through. -/
def Walkable (base cs : List (List Char)) : Prop :=
  ∃ h : full cs ≠ [], Sound base (full cs).dropLast ((full cs).getLast h)

/-- The targets that the function resolves as they stand: an absolute one that has no `./` is free of dot
components; another absolute one has a component that starts with a dot, and the components from there
on are sound above those before; a relative one is sound above the directory of the link. -/
def Lexical (link target : List Char) : Prop :=
  if target.head? = some '/' then
    if strstr ['.', '/'] target = none then ∀ c ∈ components target, Plain c
    else Walkable ((components target).takeWhile (¬ Hidden ·)) ((components target).dropWhile (¬ Hidden ·))
  else Walkable (components link).dropLast (target.splitOn '/')

theorem resolution_absolute {link target : List Char} (h : target.head? = some '/') :
    resolution link target = run [] ((components target).map stepOf) := by
  cases target with
  | nil => cases h
  | cons x target =>
    obtain rfl : x = '/' := by simpa using h
    have hs : ('/' :: target).splitOn '/' = [] :: target.splitOn '/' := by
      rw [List.splitOn_cons_eq_if_modifyHead, beq_self_eq_true, if_pos rfl]
    rw [resolution, origin, if_pos h, List.nil_append, hs, List.map_cons, stepOf_nil, run_stay]
    rfl

/-- An absolute target without `./` is copied. -/
theorem resolves_copied {link target : List Char} (hl : link.head? = some '/') (h : target.head? = some '/')
    (hs : strstr ['.', '/'] target = none) :
    (∀ size, Resolves link target size) ↔ ∀ c ∈ components target, Plain c := by
  obtain ⟨hb, hns⟩ := behind_components h
  have hf : ∀ size, targetAbsolutePath link target size = sized size target := by
    intro size
    rw [targetAbsolutePath, if_neg (not_not.mpr hl), if_pos ⟨h, hs⟩, sized]
  simp only [Resolves, hf]
  rw [gives_sized (Nat.le_add_left _ _), resolution_absolute h]
  constructor
  · intro hsh
    cases hr : run [] ((components target).map stepOf) with
    | none =>
      rw [hr, Shows] at hsh
      rw [hsh] at h
      cases h
    | some ns =>
      rw [hr] at hsh
      obtain ⟨-, hns⟩ := hsh
      refine plain_of_full fun c hc => ?_
      have hc' : c ∈ ns := hns ▸ hc
      exact proper_of_resolution hr c hc'
  · intro hp
    rw [run_plain hp]
    exact ⟨h, rfl⟩

/-- An absolute target with `./` is resolved from its first component that starts with a dot. -/
theorem resolves_absolute {link target : List Char} (hl : link.head? = some '/') (h : target.head? = some '/')
    (hs : strstr ['.', '/'] target ≠ none) :
    (∀ size, Resolves link target size) ↔
      Walkable ((components target).takeWhile (¬ Hidden ·)) ((components target).dropWhile (¬ Hidden ·)) := by
  obtain ⟨hb, hns⟩ := behind_components h
  have hcopied : ¬ (target.head? = some '/' ∧ strstr ['.', '/'] target = none) := fun hc => hs hc.2
  have hfound := strstr_behind hns
  rw [hb] at hfound
  have hf : ∀ size, targetAbsolutePath link target size =
      (strstr ['/', '.'] target).elim .fault fun temp =>
        walk size (target.take (target.length - (temp.tail.length + 1))) (strtok temp.tail) := by
    intro size
    rw [targetAbsolutePath, if_neg (not_not.mpr hl), if_neg hcopied]
    rw [if_pos h]
    cases strstr ['/', '.'] target <;> rfl
  have hsplit : (components target).takeWhile (¬ Hidden ·) ++ (components target).dropWhile (¬ Hidden ·) =
      components target := List.takeWhile_append_dropWhile
  have hhead := List.head?_dropWhile_not (¬ Hidden ·) (components target)
  simp only [Resolves, hf, hfound]
  rw [resolution_absolute h]
  generalize (components target).takeWhile (¬ Hidden ·) = front at hsplit
  generalize (components target).dropWhile (¬ Hidden ·) = rest at hsplit hhead
  cases rest with
  | nil =>
    simp only [if_pos, Option.elim_none, Gives, Walkable]
    exact iff_of_false (fun hg => hg 0) (fun hw => hw.1 rfl)
  | cons c rest =>
    have hc : Hidden c := by simpa using hhead
    rw [← hsplit] at hns hb ⊢
    rw [behind_append] at hb
    have hfront : NoSlash front := fun d hd => hns d (List.mem_append_left _ hd)
    have hrest : NoSlash (c :: rest) := fun d hd => hns d (List.mem_append_right _ hd)
    obtain ⟨hcs, hrs⟩ := List.forall_mem_cons.mp hrest
    have hfull : full (c :: rest) ≠ [] := by
      refine List.ne_nil_of_mem (mem_full.mpr ⟨List.mem_cons_self, ?_⟩)
      rintro rfl
      cases hc
    have hlen := congrArg List.length hb
    rw [List.length_append] at hlen
    have htok : strtok (c ++ behind '/' rest) = full (c :: rest) := by
      rw [strtok, splitOn_behind hcs hrs, full]
    have htake : target.take (target.length - ((c ++ behind '/' rest).length + 1)) = behind '/' front := by
      rw [← hb, behind_cons, List.length_append, List.length_cons, Nat.add_sub_cancel, List.take_left]
    simp only [List.cons_ne_nil, if_false, Option.elim_some, behind_cons, List.tail_cons, htok, htake]
    rw [gives_tokens hfront hrest (by omega) hfull, Walkable]
    exact ⟨fun hw => ⟨hfull, hw⟩, fun hw => hw.2⟩

theorem resolves_relative {link target : List Char} (hl : link.head? = some '/') (h : target.head? ≠ some '/')
    (hne : target ≠ []) :
    (∀ size, Resolves link target size) ↔ Walkable (components link).dropLast (target.splitOn '/') := by
  obtain ⟨hb, hns⟩ := behind_components hl
  obtain ⟨p, ps, hsplit, ht, hp, hps⟩ := splitOn_pieces '/' target
  have hcs : NoSlash (target.splitOn '/') := by
    rw [hsplit]
    exact List.forall_mem_cons.mpr ⟨hp, hps⟩
  have hfull : full (target.splitOn '/') ≠ [] := by
    have hpne : p ≠ [] := by
      rintro rfl
      rw [List.nil_append] at ht
      have hhead : behind '/' ps = [] ∨ ∃ u, behind '/' ps = '/' :: u := behind_head ps
      rcases hhead with he | ⟨u, he⟩
      · exact hne (ht.trans he)
      · rw [ht, he] at h
        exact h rfl
    rw [hsplit]
    exact List.ne_nil_of_mem (mem_full.mpr ⟨List.mem_cons_self, hpne⟩)
  obtain ⟨base, last, hlink⟩ : ∃ base last, components link = base ++ [last] :=
    ⟨_, _, (List.dropLast_append_getLast (List.splitOn_ne_nil _ _)).symm⟩
  rw [hlink] at hb hns
  obtain ⟨hbase, hlast⟩ := hns.dropLast
  rw [behind_concat] at hb
  have hlen : (behind '/' base).length + (behind '/' (target.splitOn '/')).length ≤
      link.length + target.length := by
    have h₁ := congrArg List.length hb
    have h₂ := congrArg List.length ht
    rw [List.length_append, List.length_cons] at h₁
    rw [List.length_append] at h₂
    rw [hsplit, behind_cons, List.length_cons, List.length_append]
    omega
  have hf : ∀ size, targetAbsolutePath link target size =
      walk size (behind '/' base) (full (target.splitOn '/')) := by
    intro size
    rw [targetAbsolutePath, if_neg (not_not.mpr hl), if_neg fun hc => h hc.1, if_neg h, ← hb,
      strrchr_append _ hlast]
    simp only [cut_append]
    rfl
  simp only [Resolves, hf]
  rw [hlink, List.dropLast_concat, resolution, origin, if_neg h, hlink, List.dropLast_concat,
    gives_tokens hbase hcs hlen hfull, Walkable]
  exact ⟨fun hw => ⟨hfull, hw⟩, fun hw => hw.2⟩

/-- For every buffer the function gives the place that the target names, seen from the directory of the
link, exactly if the target is of one of the kinds it can take apart. -/
theorem resolves_iff {link target : List Char} (hl : link.head? = some '/') (hne : target ≠ []) :
    (∀ size, Resolves link target size) ↔ Lexical link target := by
  by_cases h : target.head? = some '/'
  · by_cases hs : strstr ['.', '/'] target = none
    · rw [Lexical, if_pos h, if_pos hs]
      exact resolves_copied hl h hs
    · rw [Lexical, if_pos h, if_neg hs]
      exact resolves_absolute hl h hs
  · rw [Lexical, if_neg h]
    exact resolves_relative hl h hne

theorem resolves_iff_up : (∀ size, Resolves ['/', 'a', '/', 'l'] ['.', '.', '/', 'b'] size) ↔
    Lexical ['/', 'a', '/', 'l'] ['.', '.', '/', 'b'] :=
  resolves_iff rfl (by decide)

/-- The target `/a./b` has `./` and no `/.`, and the last component of `/a/..` stays. -/
theorem target_misread : targetAbsolutePath ['/', 'l'] ['/', 'a', '.', '/', 'b'] 100 = .fault ∧
    targetAbsolutePath ['/', 'l'] ['/', 'a', '/', '.', '.'] 100 = .ok ['/', 'a', '/', '.', '.'] ∧
    ¬ Resolves ['/', 'l'] ['/', 'a', '.', '/', 'b'] 100 ∧
    ¬ Resolves ['/', 'l'] ['/', 'a', '/', '.', '.'] 100 := by
  have h₁ : targetAbsolutePath ['/', 'l'] ['/', 'a', '.', '/', 'b'] 100 = .fault := by decide +kernel
  have h₂ : targetAbsolutePath ['/', 'l'] ['/', 'a', '/', '.', '.'] 100 = .ok ['/', 'a', '/', '.', '.'] := by
    decide +kernel
  refine ⟨h₁, h₂, ?_, ?_⟩
  · rw [Resolves, h₁]
    exact not_false
  · have hr : resolution ['/', 'l'] ['/', 'a', '/', '.', '.'] = some [] := by decide +kernel
    rw [Resolves, h₂, hr]
    intro h
    have hc : (components ['/', 'a', '/', '.', '.']).filter (· ≠ []) = [] := h.2
    exact absurd hc (by decide +kernel)

end Ltfs.SymlinkSpec
