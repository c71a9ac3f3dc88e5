import Ltfs.Criteria
import Ltfs.Lib.Split

namespace Ltfs.CriteriaFind

open Criteria Split

variable {o : Opt} {str p tail : Str} {ps : List Str}

/-- What can stand behind a piece of the string -/
def Behind (tail : Str) : Prop := tail = [] ∨ ∃ r, tail = slash :: r

theorem Behind.takeWhile (h : Behind tail) (hp : slash ∉ p) : optionText (p ++ tail) = p := by
  rw [optionText, List.takeWhile_append_of_pos fun c hc => by simpa using fun hs : c = slash => hp (hs ▸ hc)]
  obtain rfl | ⟨r, rfl⟩ := h
  · exact List.append_nil p
  · rw [List.takeWhile_cons_of_neg (by simp), List.append_nil]

theorem Behind.dropWhile (h : Behind tail) (hp : slash ∉ p) : optionEnd (p ++ tail) = tail := by
  rw [optionEnd, List.dropWhile_append_of_pos fun c hc => by simpa using fun hs : c = slash => hp (hs ▸ hc)]
  obtain rfl | ⟨r, rfl⟩ := h
  · rfl
  · rw [List.dropWhile_cons_of_neg (by simp)]

theorem text_length (o : Opt) : o.text.length = 5 := by
  cases o <;> rfl

theorem slash_text (o : Opt) : slash ∉ o.text.map tolower := by
  cases o <;> decide

theorem hasPrefix_length (h : hasPrefix o.text str) : 5 ≤ str.length := by
  have hlen := congrArg List.length (of_decide_eq_true h)
  rw [List.length_map, List.length_map, List.length_take, text_length] at hlen
  omega

theorem hasPrefix_slash (r : Str) : hasPrefix o.text (slash :: r) = false := by
  rw [Bool.eq_false_iff]
  intro h
  obtain ⟨c, rest, hcons, hc⟩ := hasPrefix_head h
  cases hcons
  exact hc rfl

/-- No option reaches over the end of a piece. -/
theorem hasPrefix_append (htail : Behind tail) : hasPrefix o.text (p ++ tail) = hasPrefix o.text p := by
  by_cases hlen : 5 ≤ p.length
  · rw [hasPrefix, hasPrefix, text_length, List.take_append_of_le_length hlen]
  have hshort : hasPrefix o.text p = false := by
    rw [Bool.eq_false_iff]
    exact fun h => hlen (hasPrefix_length h)
  rw [hshort, Bool.eq_false_iff]
  intro h
  obtain rfl | ⟨r, rfl⟩ := htail
  · rw [List.append_nil] at h
    exact hlen (hasPrefix_length h)
  have hmem : slash ∈ (p ++ slash :: r).take 5 := by
    obtain ⟨n, hn⟩ : ∃ n, 5 = p.length + (n + 1) := ⟨5 - p.length - 1, by omega⟩
    rw [hn, List.take_length_add_append, List.take_succ_cons]
    exact List.mem_append_right _ List.mem_cons_self
  have hbad := List.mem_map_of_mem (f := tolower) hmem
  rw [← text_length o, of_decide_eq_true h] at hbad
  exact slash_text o hbad

theorem isOption_append (htail : Behind tail) : isOption (p ++ tail) = isOption p := by
  rw [isOption, isOption, hasPrefix_append htail, hasPrefix_append htail]

/-- Inside of a piece no match counts. -/
theorem findStart_piece {prev : UInt8} (hprev : prev ≠ slash) (hp : slash ∉ p) :
    ∃ c ≠ slash, findStart o.text prev (p ++ tail) = findStart o.text c tail := by
  induction p generalizing prev with
  | nil => exact ⟨prev, hprev, rfl⟩
  | cons c p ih =>
    rw [List.mem_cons, not_or] at hp
    rw [List.cons_append, findStart, if_neg fun h => hprev h.1]
    exact ih (Ne.symm hp.1) hp.2

theorem findStart_behind {prev : UInt8} (hprev : prev ≠ slash) (ps : List Str) :
    findStart o.text prev (behind slash ps) = strStart o.text (behind slash ps) := by
  cases ps with
  | nil => cases o <;> rfl
  | cons p ps =>
    rw [behind_cons, strStart, hasPrefix_slash, findStart, if_neg fun h => hprev h.1]
    rfl

/-- The search looks at one piece after the other, whether a separator stands before the first of them or not. -/
theorem strStart_piece (hp : slash ∉ p) (hne : p ≠ []) :
    strStart o.text (p ++ behind slash ps) =
      if hasPrefix o.text p then some (p ++ behind slash ps) else strStart o.text (behind slash ps) := by
  rw [strStart, hasPrefix_append (behind_head ps)]
  split_ifs with hhere
  · rfl
  · obtain ⟨c, rest, rfl⟩ := List.exists_cons_of_ne_nil hne
    rw [List.mem_cons, not_or] at hp
    obtain ⟨d, hd, hfind⟩ := @findStart_piece o rest (behind slash ps) c (Ne.symm hp.1) hp.2
    exact hfind.trans (findStart_behind hd ps)

theorem strStart_behind (hp : slash ∉ p) (hne : p ≠ []) :
    strStart o.text (behind slash (p :: ps)) = strStart o.text (p ++ behind slash ps) := by
  rw [behind_cons, strStart, hasPrefix_slash, strStart_piece hp hne]
  obtain ⟨c, rest, rfl⟩ := List.exists_cons_of_ne_nil hne
  have hhere := @hasPrefix_append o (c :: rest) _ (behind_head ps)
  rw [List.cons_append] at hhere
  change findStart o.text slash (c :: (rest ++ behind slash ps)) = _
  rw [findStart, hhere]
  split_ifs with hfirst hfirst' hfirst'
  · rfl
  · exact absurd hfirst.2 hfirst'
  · exact absurd ⟨rfl, hfirst'⟩ hfirst
  · rw [List.mem_cons, not_or] at hp
    obtain ⟨d, hd, hfind⟩ := @findStart_piece o rest (behind slash ps) c (Ne.symm hp.1) hp.2
    exact hfind.trans (findStart_behind hd ps)

/-- A string that is too short for an option has none. -/
theorem find_eq (o : Opt) (str : Str) :
    indexCriteriaFindOption o str =
      match strStart o.text str with
      | none => .absent
      | some start =>
        match indexCriteriaFindOption o (optionEnd start) with
        | .at _ _ => .error
        | _ => .at start (optionEnd start) := by
  rw [indexCriteriaFindOption]
  split_ifs with hshort
  · cases hstart : strStart o.text str with
    | none => rfl
    | some start =>
      obtain ⟨hpre, hlen⟩ := strStart_some hstart
      have := hasPrefix_length hpre
      omega
  · cases strStart o.text str with
    | none => rfl
    | some start => rfl

/-- The search, piece by piece -/
def search (o : Opt) : List Str → Found
  | [] => .absent
  | p :: ps =>
    if hasPrefix o.text p then
      match search o ps with
      | .at _ _ => .error
      | _ => .at (p ++ behind slash ps) (behind slash ps)
    else search o ps

theorem find_piece (hp : slash ∉ p) (hne : p ≠ [])
    (ih : indexCriteriaFindOption o (behind slash ps) = search o ps) :
    indexCriteriaFindOption o (p ++ behind slash ps) = search o (p :: ps) := by
  have hend : optionEnd (p ++ behind slash ps) = behind slash ps :=
    Behind.dropWhile (behind_head ps) hp
  rw [find_eq, strStart_piece hp hne, search]
  split_ifs with hhere
  · simp only [hend, ih]
  · rw [← find_eq, ih]

theorem find_behind (hps : ∀ p ∈ ps, slash ∉ p ∧ p ≠ []) :
    indexCriteriaFindOption o (behind slash ps) = search o ps := by
  induction ps with
  | nil =>
    rw [indexCriteriaFindOption, if_pos (by decide)]
    rfl
  | cons p ps ih =>
    obtain ⟨hp, hne⟩ := hps p List.mem_cons_self
    have hfind := find_piece hp hne (ih fun q hq => hps q (List.mem_cons_of_mem p hq))
    rw [find_eq, strStart_behind hp hne, ← find_eq, hfind]

/-- The options of one name -/
def chosen (o : Opt) (ps : List Str) : List Str := ps.filter (hasPrefix o.text)

/-- What a search says of the number of options -/
inductive Outcome (o : Opt) (ps : List Str) : Found → Prop where
  | absent (h : chosen o ps = []) : Outcome o ps .absent
  | error (h : chosen o ps ≠ []) (heven : (chosen o ps).length % 2 = 0) : Outcome o ps .error
  | at (q : Str) (stop : Str) (h : (chosen o ps).head? = some q) (hodd : (chosen o ps).length % 2 = 1)
      (hstop : Behind stop) : Outcome o ps (.at (q ++ stop) stop)

theorem search_outcome (o : Opt) (ps : List Str) : Outcome o ps (search o ps) := by
  induction ps with
  | nil => exact .absent rfl
  | cons p ps ih =>
    rw [search]
    split_ifs with hhere
    · have hchosen : chosen o (p :: ps) = p :: chosen o ps := List.filter_cons_of_pos hhere
      have hlen : (chosen o (p :: ps)).length = (chosen o ps).length + 1 := by
        rw [hchosen, List.length_cons]
      have hhead : (chosen o (p :: ps)).head? = some p := by
        rw [hchosen, List.head?_cons]
      generalize search o ps = found at ih
      cases ih with
      | absent h =>
        rw [h, List.length_nil] at hlen
        exact .at p _ hhead (by omega) (behind_head ps)
      | error h heven => exact .at p _ hhead (by omega) (behind_head ps)
      | «at» q stop h hodd hstop =>
        refine .error ?_ (by omega)
        rw [hchosen]
        exact List.cons_ne_nil _ _
    · have hchosen : chosen o (p :: ps) = chosen o ps := List.filter_cons_of_neg hhere
      generalize search o ps = found at ih
      cases ih with
      | absent h => exact .absent (hchosen.trans h)
      | error h heven => exact .error (by rwa [hchosen]) (by rwa [hchosen])
      | «at» q stop h hodd hstop => exact .at q stop (by rwa [hchosen]) (by rwa [hchosen]) hstop

theorem isOption_ne (h : isOption p) : p ≠ [] := by
  rintro rfl
  exact absurd h (by decide)

/-- The search is right about which options there are, up to the parity of their number. -/
theorem find_outcome (o : Opt) (h : ∀ q ∈ str.splitOn slash, isOption q) :
    Outcome o (str.splitOn slash) (indexCriteriaFindOption o str) := by
  obtain ⟨p, ps, hsplit, hstr, hp, hps⟩ := splitOn_pieces slash str
  rw [hsplit] at h ⊢
  have hfind := find_piece hp (isOption_ne (h p List.mem_cons_self))
    (@find_behind o ps fun q hq => ⟨hps q hq, isOption_ne (h q (List.mem_cons_of_mem p hq))⟩)
  rw [hstr, hfind]
  exact search_outcome o (p :: ps)

theorem separatorsValid_piece (hp : slash ∉ p) : separatorsValid (p ++ tail) = separatorsValid tail := by
  induction p with
  | nil => rfl
  | cons c p ih =>
    rw [List.mem_cons, not_or] at hp
    rw [List.cons_append, separatorsValid, ih hp.2, decide_eq_true (Ne.symm hp.1)]
    rfl

theorem separatorsValid_behind (hps : ∀ q ∈ ps, slash ∉ q) :
    separatorsValid (behind slash ps) = ps.all isOption := by
  induction ps with
  | nil => rfl
  | cons p ps ih =>
    obtain ⟨hp, hps⟩ := List.forall_mem_cons.1 hps
    rw [behind_cons, separatorsValid, isOption_append (behind_head ps), separatorsValid_piece hp, ih hps,
      List.all_cons, decide_eq_false (by simp)]
    rfl

/-- The check for invalid options passes what consists of options. -/
theorem containsInvalid_iff (str : Str) :
    indexCriteriaContainsInvalidOptions str = false ↔ ∀ q ∈ str.splitOn slash, isOption q := by
  obtain ⟨p, ps, hsplit, hstr, hp, hps⟩ := splitOn_pieces slash str
  rw [hsplit, List.forall_mem_cons, ← List.all_eq_true, ← separatorsValid_behind hps]
  have hfirst : isOption str = isOption p := by
    rw [hstr, isOption_append (behind_head ps)]
  by_cases hopt : isOption p
  · obtain ⟨c, rest, rfl⟩ := List.exists_cons_of_ne_nil (isOption_ne hopt)
    have hlen : ¬str.length < 5 := by
      rw [isOption, Bool.or_eq_true] at hopt
      have := hopt.elim hasPrefix_length hasPrefix_length
      rw [hstr, List.length_append]
      omega
    have hdrop : separatorsValid (str.drop 1) = separatorsValid (behind slash ps) := by
      rw [hstr, List.cons_append, List.drop_one, List.tail_cons]
      exact separatorsValid_piece fun h => hp (List.mem_cons_of_mem c h)
    rw [indexCriteriaContainsInvalidOptions, hfirst, hopt, hdrop, decide_eq_false hlen]
    simp
  · rw [indexCriteriaContainsInvalidOptions, hfirst, Bool.eq_false_iff.2 hopt]
    simp

end Ltfs.CriteriaFind
