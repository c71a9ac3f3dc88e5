import Ltfs.GlobMatch
import Ltfs.Lib.Backtrack

namespace Ltfs.GlobSpec

open GlobMatch Glob

variable {bound : Text → Nat → Bool} {text criteria filename : Text} {pos stop it : Nat} {b : Bnd} {cs : List Text}

theorem ubrkFollowing_some (h : ubrkFollowing bound text pos = some stop) : pos < stop ∧ stop ≤ text.length := by
  have hmem := List.mem_of_find?_eq_some h
  rw [List.mem_range'_1] at hmem
  omega

theorem ubrkFollowing_none : ubrkFollowing bound text pos = none ↔ text.length ≤ pos := by
  constructor
  · intro h
    by_contra hlt
    have hlast := List.find?_eq_none.1 h text.length (by rw [List.mem_range'_1]; omega)
    simp at hlast
  · intro h
    rw [ubrkFollowing, Nat.sub_eq_zero_of_le h]
    rfl

/-- The characters of a text from a place on -/
def characters (bound : Text → Nat → Bool) (text : Text) (pos : Nat) : List Text :=
  match _h : ubrkFollowing bound text pos with
  | none => []
  | some stop => (text.drop pos).take (stop - pos) :: characters bound text stop
termination_by text.length - pos
decreasing_by
  have := ubrkFollowing_some _h
  omega

theorem characters_end (h : text.length ≤ pos) : characters bound text pos = [] := by
  rw [characters]
  split
  · rfl
  · rename_i hstop
    rw [ubrkFollowing_none.2 h] at hstop
    cases hstop

theorem characters_cons (h : ubrkFollowing bound text pos = some stop) :
    characters bound text pos = (text.drop pos).take (stop - pos) :: characters bound text stop := by
  rw [characters]
  split
  · rename_i hnone
    rw [h] at hnone
    cases hnone
  · rename_i hstop
    rw [h] at hstop
    cases hstop
    rfl

/-- The boundaries `b`, with an iterator at `it`, stand before the characters `cs` of the text. -/
structure At (bound : Text → Nat → Bool) (text : Text) (it : Nat) (b : Bnd) (cs : List Text) : Prop where
  iterator : it = b.stop
  size : b.size = b.stop - b.start
  next : (ubrkFollowing bound text b.start).getD text.length = b.stop
  start : b.start ≤ text.length
  rest : cs = characters bound text b.start

theorem At.stop_le (h : At bound text it b cs) : b.start ≤ b.stop ∧ b.stop ≤ text.length := by
  have hnext := h.next
  cases hf : ubrkFollowing bound text b.start with
  | none =>
    rw [hf] at hnext
    exact ⟨hnext ▸ h.start, hnext ▸ Nat.le_refl _⟩
  | some stop =>
    rw [hf] at hnext
    have := ubrkFollowing_some hf
    simp only [Option.getD_some] at hnext
    omega

theorem At.nil (h : At bound text it b cs) : b.start = b.stop ↔ cs = [] := by
  have hnext := h.next
  rw [h.rest]
  cases hf : ubrkFollowing bound text b.start with
  | none =>
    rw [hf] at hnext
    have hend := ubrkFollowing_none.1 hf
    exact iff_of_true (Nat.le_antisymm h.start hend |>.trans hnext) (characters_end hend)
  | some stop =>
    rw [hf] at hnext
    have := ubrkFollowing_some hf
    simp only [Option.getD_some] at hnext
    rw [characters_cons hf]
    exact iff_of_false (by omega) (List.cons_ne_nil _ _)

theorem At.cons (h : At bound text it b cs) (hne : b.start ≠ b.stop) :
    cs = (text.drop b.start).take (b.stop - b.start) :: characters bound text b.stop := by
  have hnext := h.next
  cases hf : ubrkFollowing bound text b.start with
  | none => exact absurd (h.nil.2 (h.rest.trans (characters_end (ubrkFollowing_none.1 hf)))) hne
  | some stop =>
    rw [hf] at hnext
    obtain rfl : stop = b.stop := hnext
    rw [h.rest, characters_cons hf]

theorem At.tail (h : At bound text it b cs) : cs.tail = characters bound text b.stop := by
  by_cases hne : b.start = b.stop
  · have hnil := h.nil.1 hne
    rw [← hne, ← h.rest, hnil]
    rfl
  · rw [h.cons hne]
    rfl

/-- An iterator at a place moves on from it. -/
theorem nextChar_at (hit : it = b.stop) (hstop : b.stop ≤ text.length) :
    At bound text (nextChar bound text it b).1 (nextChar bound text it b).2 (characters bound text b.stop) := by
  subst hit
  rw [nextChar]
  cases hf : ubrkFollowing bound text b.stop with
  | some stop =>
    refine ⟨rfl, rfl, ?_, hstop, rfl⟩
    dsimp only
    rw [hf]
    rfl
  | none =>
    have hend : b.stop = text.length := Nat.le_antisymm hstop (ubrkFollowing_none.1 hf)
    have hzero : ((text.drop b.stop).takeWhile (· ≠ 0)).length = 0 := by
      rw [hend, List.drop_length]
      rfl
    dsimp only
    rw [hzero, Nat.add_zero]
    refine ⟨rfl, rfl, ?_, hstop, rfl⟩
    dsimp only
    rw [hf, hend]
    rfl

theorem At.nextChar (h : At bound text it b cs) :
    At bound text (nextChar bound text it b).1 (GlobMatch.nextChar bound text it b).2 cs.tail := by
  rw [h.tail]
  exact nextChar_at h.iterator h.stop_le.2

/-- The meaning of a character of the pattern -/
def sym (c : Text) : Sym Text := if c = [0x2a] then .star else if c = [0x3f] then .any else .lit c

theorem At.isChar (h : At bound text it b cs) (hne : b.start ≠ b.stop) (u : UInt16) :
    isChar text b u ↔ cs.head? = some [u] := by
  have hle := h.stop_le
  have hslice : (text.drop b.start).length = text.length - b.start := List.length_drop
  rw [h.cons hne, List.head?_cons, Option.some.injEq, GlobMatch.isChar, Bool.and_eq_true, decide_eq_true_iff,
    decide_eq_true_iff, h.size]
  constructor
  · rintro ⟨hu, hsize⟩
    obtain ⟨hlt, hget⟩ := List.getElem?_eq_some_iff.1 hu
    rw [hsize, List.drop_eq_getElem_cons hlt, hget]
    rfl
  · intro hu
    have hlen := congrArg List.length hu
    rw [List.length_take, hslice, List.length_singleton] at hlen
    have hlt : b.start < text.length := by omega
    rw [List.drop_eq_getElem_cons hlt, show b.stop - b.start = 1 by omega] at hu
    have hget := (List.cons.inj hu).1
    exact ⟨by rw [List.getElem?_eq_getElem hlt, hget], by omega⟩

theorem At.head_length (h : At bound text it b cs) :
    ((text.drop b.start).take (b.stop - b.start)).length = b.size := by
  have hle := h.stop_le
  rw [List.length_take, List.length_drop, h.size]
  omega

theorem charsEqual_iff {it' : Nat} {b' : Bnd} {c c' : Text} {cs' : List Text}
    (h : At bound criteria it b (c :: cs)) (h' : At bound filename it' b' (c' :: cs')) :
    charsEqual criteria b filename b' ↔ c = c' := by
  have hne := h.nil.not.2 (List.cons_ne_nil _ _)
  have hne' := h'.nil.not.2 (List.cons_ne_nil _ _)
  have hc := (List.cons.inj (h.cons hne)).1
  have hc' := (List.cons.inj (h'.cons hne')).1
  have hlen := h.head_length
  have hlen' := h'.head_length
  rw [charsEqual, Bool.and_eq_true, decide_eq_true_iff, decide_eq_true_iff]
  constructor
  · rintro ⟨hsize, hslice⟩
    rw [h.size, h'.size] at hsize
    rw [hc, hc', hslice, hsize]
  · intro heq
    rw [← hc] at hlen
    rw [← hc'] at hlen'
    have hsize : b.size = b'.size := by rw [← hlen, ← hlen', heq]
    refine ⟨hsize, ?_⟩
    rw [h.size, h'.size] at hsize
    rw [← hc, heq, hc', hsize]

theorem sym_star {c : Text} : sym c = .star ↔ c = [0x2a] := by
  rw [sym]
  split_ifs with h h' <;> simp [h]

theorem sym_fits {c d : Text} (hstar : c ≠ [0x2a]) : (sym c).fits d ↔ c = [0x3f] ∨ c = d := by
  rw [sym, if_neg hstar]
  split_ifs with h
  · exact iff_of_true rfl (.inl h)
  · rw [or_iff_right h]
    exact decide_eq_true_iff

/-- The place of the machine on lists and the element of the stack of the code -/
def PlaceRel (bound : Text → Nat → Bool) (criteria filename : Text) (e : Backtrack.Place Text) (u : Ustack) : Prop :=
  (∃ cs, At bound criteria u.crBnd.stop u.crBnd cs ∧ e.1 = cs.map sym) ∧ At bound filename u.fiBnd.stop u.fiBnd e.2

/-- The state of the machine on lists and the state of the code -/
structure Rel (bound : Text → Nat → Bool) (criteria filename : Text) (a : Backtrack.State Text) (s : State) : Prop where
  pattern : ∃ cs, At bound criteria s.ubCriteria s.crBnd cs ∧ a.pattern = cs.map sym
  name : At bound filename s.ubFilename s.fiBnd a.name
  stack : List.Forall₂ (PlaceRel bound criteria filename) a.stack s.stack
  asterisk : s.haveAsterisk = a.asterisk

/-- The results of the two machines -/
def Result (b : Bool) (r : Int) : Prop := r = if b then 1 else 0

variable {a : Backtrack.State Text} {s : State}

theorem forall₂_last {α β : Type} {R : α → β → Prop} {as : List α} {bs : List β} (h : List.Forall₂ R as bs) :
    as = [] ∧ bs = [] ∨ ∃ as' a bs' b, as = as' ++ [a] ∧ bs = bs' ++ [b] ∧ List.Forall₂ R as' bs' ∧ R a b := by
  induction h with
  | nil => exact .inl ⟨rfl, rfl⟩
  | @cons a b as bs hab _ ih =>
    right
    obtain ⟨rfl, rfl⟩ | ⟨as', a', bs', b', rfl, rfl, hrest, hlast⟩ := ih
    · exact ⟨[], a, [], b, rfl, rfl, .nil, hab⟩
    · exact ⟨a :: as', a', b :: bs', b', rfl, rfl, .cons hab hrest, hlast⟩

theorem pop_follows (h : Rel bound criteria filename a s) :
    Machine.Follows (Rel bound criteria filename) Result (Backtrack.back a.stack)
      (popState bound criteria filename s) := by
  rw [Backtrack.back, popState]
  obtain ⟨ha, hs⟩ | ⟨as, e, us, u, ha, hs, hrest, ⟨cs, hcr, hp⟩, hfi⟩ := forall₂_last h.stack
  · rw [ha, hs]
    exact ⟨0, rfl, rfl⟩
  · rw [ha, hs, List.getLast?_concat, List.getLast?_concat, List.dropLast_concat, List.dropLast_concat]
    have hname := (show At bound filename _ u.fiBnd e.2 from { hfi with iterator := hfi.next }).nextChar
    exact ⟨_, rfl, ⟨cs, { hcr with iterator := hcr.next }, hp⟩, hname, hrest, rfl⟩

theorem push_follows {e : Backtrack.Place Text} {u : Ustack} {st : List (Backtrack.Place Text)} {us : List Ustack}
    (h : List.Forall₂ (PlaceRel bound criteria filename) st us) (he : PlaceRel bound criteria filename e u) :
    List.Forall₂ (PlaceRel bound criteria filename) (Backtrack.push e st) (pushUstack u us) := by
  cases h with
  | nil => exact .cons he .nil
  | cons hb _ => exact .cons hb (.cons he .nil)

theorem afterLoop_follows (h : Rel bound criteria filename a s) (hne : s.crBnd.start ≠ s.crBnd.stop ∨ s.fiBnd.start ≠ s.fiBnd.stop) :
    Machine.Follows (Rel bound criteria filename) Result (Backtrack.back a.stack)
      (afterLoop bound criteria filename s) := by
  rw [afterLoop, if_neg (not_and_or.2 hne)]
  exact pop_follows h

theorem sym_cons {c : Text} (hc : c ≠ [0x2a]) : sym c ≠ .star := fun h => hc (sym_star.1 h)

/-- A character of the pattern that is no asterisk -/
theorem char_follows {p n : List (Text)} {c : Text} {st : List (Backtrack.Place Text)} {ast : Bool} (hc : c ≠ [0x2a])
    (h : Rel bound criteria filename ⟨sym c :: p.map sym, n, st, ast⟩ s)
    (hcr : At bound criteria s.ubCriteria s.crBnd (c :: p)) :
    Machine.Follows (Rel bound criteria filename) Result
      (Backtrack.step ⟨sym c :: p.map sym, n, st, ast⟩) (step bound criteria filename s) := by
  have hne : s.crBnd.start ≠ s.crBnd.stop := hcr.nil.not.2 (List.cons_ne_nil _ _)
  have hstar : ¬isChar criteria s.crBnd 0x2a := by
    rw [hcr.isChar hne]
    exact fun heq => hc (Option.some.inj heq)
  have hname : At bound filename s.ubFilename s.fiBnd n := h.name
  rw [step, if_pos hne, if_neg hstar]
  cases n with
  | nil =>
    rw [Backtrack.step_empty (sym_cons hc), if_pos (hname.nil.2 rfl)]
    exact afterLoop_follows h (.inl hne)
  | cons d n =>
    have hfi := hname.nil.not.2 (List.cons_ne_nil _ _)
    have hfits : (isChar criteria s.crBnd 0x3f || charsEqual criteria s.crBnd filename s.fiBnd) = (sym c).fits d := by
      rw [Bool.eq_iff_iff, Bool.or_eq_true, hcr.isChar hne, charsEqual_iff hcr hname, sym_fits hc, List.head?_cons,
        Option.some.injEq]
    have hast : s.haveAsterisk = ast := h.asterisk
    rw [Backtrack.step_cons (sym_cons hc), if_neg hfi]
    dsimp only
    rw [hfits, hast]
    by_cases hf : (sym c).fits d
    · rw [if_pos hf, if_pos hf, if_pos hf]
      cases ast with
      | true =>
        exact ⟨_, rfl, ⟨p, hcr.nextChar, rfl⟩, hname.nextChar,
          push_follows h.stack ⟨⟨c :: p, { hcr with iterator := rfl }, rfl⟩, { hname with iterator := rfl }⟩, rfl⟩
      | false => exact ⟨_, rfl, ⟨p, hcr.nextChar, rfl⟩, hname.nextChar, h.stack, hast⟩
    · rw [if_neg hf, if_neg hf, if_neg hf]
      cases ast with
      | true => exact ⟨_, rfl, ⟨c :: p, hcr, rfl⟩, hname.nextChar, h.stack, rfl⟩
      | false => exact pop_follows h

theorem step_follows (h : Rel bound criteria filename a s) :
    Machine.Follows (Rel bound criteria filename) Result (Backtrack.step a) (step bound criteria filename s) := by
  obtain ⟨p, n, st, ast⟩ := a
  obtain ⟨cs, hcr, hp⟩ := h.pattern
  obtain rfl : p = cs.map sym := hp
  have hname : At bound filename s.ubFilename s.fiBnd n := h.name
  cases cs with
  | nil =>
    have hend : ¬s.crBnd.start ≠ s.crBnd.stop := not_not.2 (hcr.nil.2 rfl)
    rw [step, if_neg hend]
    cases n with
    | nil =>
      rw [afterLoop, if_pos ⟨hcr.nil.2 rfl, hname.nil.2 rfl⟩]
      exact ⟨1, rfl, rfl⟩
    | cons d n => exact afterLoop_follows h (.inr (hname.nil.not.2 (List.cons_ne_nil _ _)))
  | cons c cs =>
    by_cases hc : c = [0x2a]
    · have hne : s.crBnd.start ≠ s.crBnd.stop := hcr.nil.not.2 (List.cons_ne_nil _ _)
      have hstar : isChar criteria s.crBnd 0x2a := (hcr.isChar hne 0x2a).2 (congrArg some hc)
      have hsym : sym c = .star := sym_star.2 hc
      have hnext := hcr.nextChar
      rw [step, if_pos hne, if_pos hstar, List.map_cons, hsym]
      cases cs with
      | nil =>
        have hlast := hnext.nil.2 rfl
        have hstep : Backtrack.step ⟨[.star], n, st, ast⟩ = .inr true := by
          cases n <;> rfl
        dsimp only
        rw [List.map_nil, hstep, if_pos hlast]
        exact ⟨1, rfl, rfl⟩
      | cons c' cs =>
        have hmore := hnext.nil.not.2 (List.cons_ne_nil c' cs)
        have hstep : Backtrack.step ⟨.star :: (c' :: cs).map sym, n, st, ast⟩ = .inl ⟨(c' :: cs).map sym, n, st, true⟩ := by
          cases n <;> rfl
        dsimp only
        rw [hstep, if_neg hmore]
        exact ⟨_, rfl, ⟨c' :: cs, hnext, rfl⟩, hname, h.stack, rfl⟩
    · exact char_follows hc h hcr

theorem init_rel (bound : Text → Nat → Bool) (criteria filename : Text) :
    Rel bound criteria filename
      ⟨(characters bound criteria 0).map sym, characters bound filename 0, [], false⟩ (init bound criteria filename) :=
  ⟨⟨characters bound criteria 0, nextChar_at rfl (Nat.zero_le _), rfl⟩, nextChar_at rfl (Nat.zero_le _), .nil, rfl⟩

/-- The pattern that the criteria stand for -/
def pattern (bound : Text → Nat → Bool) (criteria : Text) : List (Sym Text) := (characters bound criteria 0).map sym

theorem characters_empty (bound : Text → Nat → Bool) : characters bound [] 0 = [] :=
  characters_end (Nat.zero_le _)

theorem characters_ne (hne : text ≠ []) : characters bound text 0 ≠ [] := by
  cases hf : ubrkFollowing bound text 0 with
  | none => exact absurd (List.eq_nil_of_length_eq_zero (Nat.le_zero.1 (ubrkFollowing_none.1 hf))) hne
  | some stop =>
    rw [characters_cons hf]
    exact List.cons_ne_nil _ _

/-- The matcher ends, and accepts the names that match the pattern and no others. -/
theorem matches_correct (bound : Text → Nat → Bool) (criteria filename : Text) :
    ∃ k r, (∀ n ≥ k, matchesNameCriteriaCaseless bound criteria filename n = some r) ∧ (r = 1 ∨ r = 0) ∧
      (r = 1 ↔ Matches (pattern bound criteria) (characters bound filename 0)) := by
  by_cases hcr : criteria = []
  · subst hcr
    have hpattern : pattern bound [] = [] := by
      rw [pattern, characters_empty]
      rfl
    rw [hpattern, matches_nil]
    by_cases hfi : filename = []
    · subst hfi
      exact ⟨0, 1, fun n _ => rfl, .inl rfl, iff_of_true rfl (characters_empty bound)⟩
    · refine ⟨0, 0, fun n _ => ?_, .inr rfl, iff_of_false (by decide) (characters_ne hfi)⟩
      rw [matchesNameCriteriaCaseless, if_neg fun h => hfi h.2, if_pos rfl]
  · obtain ⟨k, b, hrun, hb⟩ := Backtrack.run_correct (pattern bound criteria) (characters bound filename 0)
    obtain ⟨r, hr, hres⟩ := Machine.run_follows (fun _ _ => step_follows) (init_rel bound criteria filename) hrun
    refine ⟨k, r, fun n hn => ?_, ?_, ?_⟩
    · rw [matchesNameCriteriaCaseless, if_neg fun h => hcr h.1, if_neg hcr]
      exact Machine.run_more hr n hn
    · cases b with
      | true => exact .inl hres
      | false => exact .inr hres
    · rw [← hb, hres]
      cases b <;> decide

/-- A place that is given up on the way does no harm: the pattern has three asterisks. -/
example : matchesNameCriteriaCaseless (fun _ _ => true) [42, 97, 42, 98, 42, 99] [97, 97, 98, 98, 99, 120, 99] 40 =
    some 1 := by
  decide

end Ltfs.GlobSpec
