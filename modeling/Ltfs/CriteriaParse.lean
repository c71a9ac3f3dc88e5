import Ltfs.CriteriaFind

namespace Ltfs.CriteriaParse

open Criteria CriteriaFind Split

variable {u8Next : Str → Int × Nat} {str v : Str}

theorem splitOn_cons (c : UInt8) (rest : Str) :
    ∃ p ps, rest.splitOn colon = p :: ps ∧
      (c :: rest).splitOn colon = if c = colon then [] :: p :: ps else (c :: p) :: ps := by
  obtain ⟨p, ps, hsplit, -⟩ := splitOn_pieces colon rest
  refine ⟨p, ps, hsplit, ?_⟩
  rw [List.splitOn_cons_eq_if_modifyHead, hsplit]
  simp only [beq_iff_eq]
  rfl

/-- What the first loop is right about, from any place in the text on -/
theorem hasEmptyRule_iff (prev : UInt8) (rest p : Str) (ps : List Str) (h : rest.splitOn colon = p :: ps) :
    hasEmptyRule prev rest ↔ rest ≠ [] ∧ (prev = colon ∧ p = [] ∨ [] ∈ ps) := by
  induction rest generalizing prev p ps with
  | nil => simp [hasEmptyRule]
  | cons c rest ih =>
    obtain ⟨q, qs, hrest, hcons⟩ := splitOn_cons c rest
    have hempty : rest = [] → q = [] ∧ qs = [] := by
      rintro rfl
      rw [List.splitOn_nil] at hrest
      cases hrest
      exact ⟨rfl, rfl⟩
    rw [hcons] at h
    rw [hasEmptyRule, Bool.or_eq_true, ih c q qs hrest]
    by_cases hc : c = colon
    · rw [if_pos hc] at h
      cases h
      simp only [hc, decide_true, Bool.true_and, Bool.or_eq_true, decide_eq_true_eq, List.mem_cons]
      constructor
      · rintro ((hprev | hnil) | ⟨hne, hq | hqs⟩)
        · exact ⟨List.cons_ne_nil _ _, .inl ⟨hprev, trivial⟩⟩
        · exact ⟨List.cons_ne_nil _ _, .inr (.inl (hempty hnil).1.symm)⟩
        · exact ⟨List.cons_ne_nil _ _, .inr (.inl hq.2.symm)⟩
        · exact ⟨List.cons_ne_nil _ _, .inr (.inr hqs)⟩
      · rintro ⟨-, ⟨hprev, -⟩ | hq | hqs⟩
        · exact .inl (.inl hprev)
        · by_cases hnil : rest = []
          · exact .inl (.inr hnil)
          · exact .inr ⟨hnil, .inl ⟨trivial, hq.symm⟩⟩
        · refine .inr ⟨fun hnil => ?_, .inr hqs⟩
          rw [(hempty hnil).2] at hqs
          cases hqs
    · rw [if_neg hc] at h
      cases h
      simp only [hc, decide_false, Bool.false_and, Bool.false_eq_true, false_or, false_and, and_false,
        List.cons_ne_nil, ne_eq, not_false_eq_true, true_and]
      refine ⟨fun h => h.2, fun hqs => ⟨fun hnil => ?_, hqs⟩⟩
      rw [(hempty hnil).2] at hqs
      cases hqs

/-- The checks before the rules are counted find the empty ones, where there is a value. -/
theorem emptyRule_iff (hv : v ≠ []) :
    (v.head? = some colon ∨ hasEmptyRule (v.headD 0) v.tail) ↔ [] ∈ v.splitOn colon := by
  obtain ⟨c, rest, rfl⟩ := List.exists_cons_of_ne_nil hv
  obtain ⟨p, ps, hrest, hcons⟩ := splitOn_cons c rest
  have hloop := hasEmptyRule_iff c rest p ps hrest
  rw [hcons, List.headD_cons, List.tail_cons, List.head?_cons, Option.some.injEq, hloop]
  by_cases hc : c = colon
  · simp [hc]
  · simp only [hc, if_false, false_or, false_and, List.mem_cons, List.nil_eq, List.cons_ne_nil]
    refine ⟨fun h => h.2, fun hps => ⟨fun hnil => ?_, hps⟩⟩
    rw [hnil, List.splitOn_nil] at hrest
    cases hrest
    cases hps

/-- The second loop gives the pieces, where the last one is not empty. -/
theorem assignRules_eq (rule : Str) (hv : v ≠ []) (hlast : v.getLast? ≠ some colon) :
    assignRules rule v = (v.splitOn colon).modifyHead (rule ++ ·) := by
  induction v generalizing rule with
  | nil => exact absurd rfl hv
  | cons c rest ih =>
    rw [List.splitOn_cons_eq_if_modifyHead, assignRules]
    by_cases hrest : rest = []
    · subst hrest
      have hc : c ≠ colon := fun h => hlast (by rw [h]; rfl)
      rw [if_neg hc, if_pos rfl, if_neg (by simpa using hc)]
      rfl
    · have hlast' : rest.getLast? ≠ some colon := by
        obtain ⟨d, ds, rfl⟩ := List.exists_cons_of_ne_nil hrest
        rwa [List.getLast?_cons_cons] at hlast
      by_cases hc : c = colon
      · rw [if_pos hc, if_pos (by simpa using hc), ih [] hrest hlast']
        simp only [List.nil_append, List.modifyHead_cons, List.append_nil]
        exact congrArg _ (congrFun List.modifyHead_id _)
      · rw [if_neg hc, if_neg hrest, if_neg (by simpa using hc), ih (rule ++ [c]) hrest hlast', List.modifyHead_modifyHead]
        congr 1
        funext p
        simp

theorem assignRules_splitOn (hv : v ≠ []) (hfull : [] ∉ v.splitOn colon) : assignRules [] v = v.splitOn colon := by
  rw [assignRules_eq [] hv fun hlast => ?_]
  · exact congrFun List.modifyHead_id _
  · obtain ⟨w, rfl⟩ := List.getLast?_eq_some_iff.1 hlast
    exact hfull (nil_mem_splitOn_concat w colon)

theorem validateRules_iff (ps : List Str) :
    validateRules u8Next ps = .ok () ↔ ∀ p ∈ ps, pathnameValidateFile u8Next p = .ok () := by
  induction ps with
  | nil => exact iff_of_true rfl nofun
  | cons p ps ih =>
    rw [validateRules, List.forall_mem_cons]
    cases pathnameValidateFile u8Next p with
    | ok => exact ih.trans (iff_and_self.2 fun _ => rfl)
    | error e => exact iff_of_false nofun fun h => nomatch h.1

/-- A pattern that may stand in the list -/
def Pattern (u8Next : Str → Int × Nat) (p : Str) : Prop := p ≠ [] ∧ pathnameValidateFile u8Next p = .ok ()

variable {junk criteria : Str} {ic : IndexCriteria} {len : Nat}

theorem parseName_value (h : (criteria.take (len - 1)).drop Opt.name.text.length = v) (hv : v ≠ []) :
    ((indexCriteriaParseName u8Next junk criteria len ic).1 = .ok () ↔ ∀ p ∈ v.splitOn colon, Pattern u8Next p) ∧
      ((indexCriteriaParseName u8Next junk criteria len ic).1 = .ok () →
        (indexCriteriaParseName u8Next junk criteria len ic).2 = { ic with globPatterns := some (v.splitOn colon) }) := by
  have hempty := emptyRule_iff hv
  rw [indexCriteriaParseName, h, if_neg hv]
  by_cases hnil : [] ∈ v.splitOn colon
  · have hno : ¬∀ p ∈ v.splitOn colon, Pattern u8Next p := fun h => (h [] hnil).1 rfl
    dsimp only
    split_ifs with hhead hloop
    · exact ⟨iff_of_false nofun hno, nofun⟩
    · exact ⟨iff_of_false nofun hno, nofun⟩
    all_goals exact absurd (hempty.2 hnil) (not_or.2 ⟨hhead, hloop⟩)
  · obtain ⟨hhead, hloop⟩ := not_or.1 (hempty.not.2 hnil)
    dsimp only
    rw [if_neg hhead, if_neg hloop, assignRules_splitOn hv hnil, if_neg (List.splitOn_ne_nil _ _), validateRules_iff]
    refine ⟨⟨fun hvalid p hp => ⟨fun hn => hnil (hn ▸ hp), hvalid p hp⟩, fun hall p hp => (hall p hp).2⟩, fun _ => rfl⟩

/-- Without a value the outcome depends on what the buffer holds: it is an error, or the empty pattern. -/
theorem parseName_empty (h : (criteria.take (len - 1)).drop Opt.name.text.length = []) :
    indexCriteriaParseName u8Next junk criteria len ic =
      if hasEmptyRule 0 junk then (.error .policyEmptyRule, ic) else (.ok (), { ic with globPatterns := some [[]] }) := by
  rw [indexCriteriaParseName, h]
  rfl

/-- The value of an option of the string -/
def optValue (q : Str) : Str := q.drop 5

/-- The options of one name that a string holds -/
def options (o : Opt) (str : Str) : List Str := chosen o (str.splitOn slash)

def sizeAccepted (q : Str) : Prop := ∃ n, indexCriteriaParseSize q (q.length + 1) = .ok n

/-- The strings that stand for criteria -/
structure Form (u8Next : Str → Int × Nat) (str : Str) : Prop where
  pieces : ∀ q ∈ str.splitOn slash, isOption q
  names : (options .name str).length ≤ 1
  sizes : (options .size str).length ≤ 1
  together : options .name str ≠ [] → options .size str ≠ []
  patterns : ∀ q ∈ options .name str, ∀ p ∈ (optValue q).splitOn colon, Pattern u8Next p
  accepted : ∀ q ∈ options .size str, sizeAccepted q

/-- Criteria that were never set, or were freed, have no patterns. -/
def Tidy (ic : IndexCriteria) : Prop := ic.haveCriteria = false → ic.globPatterns = none

/-- The patterns of the name option -/
def patternsOf (str : Str) : Option (List Str) :=
  (options .name str).head?.map fun q => (optValue q).splitOn colon

/-- The parser accepts the strings that stand for criteria and nothing else, and keeps their patterns, whatever the
criteria were before and whatever is in the memory behind its buffer. -/
def Right (u8Next : Str → Int × Nat) (str : Str) : Prop :=
  ∀ junk ic, Tidy ic →
    ((indexCriteriaParse u8Next junk str ic).1 = .ok () ↔ Form u8Next str) ∧
      (Form u8Next str → (indexCriteriaParse u8Next junk str ic).2.globPatterns = patternsOf str)

/-- The strings that are refused: a piece that is no option, an option that occurs twice, or any even number of
times, a name without a size, an empty or invalid pattern in the first name, a first size that is refused. -/
inductive Refused (u8Next : Str → Int × Nat) (str : Str) : Prop where
  | piece (q : Str) (hq : q ∈ str.splitOn slash) (h : ¬isOption q)
  | even (o : Opt) (hne : options o str ≠ []) (h : (options o str).length % 2 = 0)
  | alone (hname : options .name str ≠ []) (hsize : options .size str = [])
  | pattern (q p : Str) (hq : (options .name str).head? = some q) (hne : optValue q ≠ [])
      (hp : p ∈ (optValue q).splitOn colon) (h : ¬Pattern u8Next p)
  | size (q : Str) (hq : (options .size str).head? = some q) (h : ¬sizeAccepted q)

/-- What the code accepts -/
structure Accepts (u8Next : Str → Int × Nat) (junk str : Str) : Prop where
  pieces : ∀ q ∈ str.splitOn slash, isOption q
  name : options .name str = [] ∨ (options .name str).length % 2 = 1 ∧ ∃ q, (options .name str).head? = some q ∧
    if optValue q = [] then hasEmptyRule 0 junk = false else ∀ p ∈ (optValue q).splitOn colon, Pattern u8Next p
  odd : (options .size str).length % 2 = 1
  size : ∃ q, (options .size str).head? = some q ∧ sizeAccepted q

theorem cut_append (q stop : Str) : (q ++ stop).take ((q ++ stop).length - stop.length + 1 - 1) = q := by
  rw [List.length_append, Nat.add_sub_cancel, Nat.add_sub_cancel, List.take_left]

theorem parseSize_append {q : Str} (stop : Str) (hq : 5 ≤ q.length) :
    indexCriteriaParseSize (q ++ stop) ((q ++ stop).length - stop.length + 1) = indexCriteriaParseSize q (q.length + 1) := by
  have hfront : (q.drop 5).length = q.length + 1 - 5 - 1 := by
    rw [List.length_drop]
    omega
  rw [indexCriteriaParseSize, indexCriteriaParseSize, text_length, List.length_append, Nat.add_sub_cancel,
    List.drop_append_of_le_length hq, ← hfront, List.take_left, List.take_length]

theorem mem_options {o : Opt} {q : Str} (h : (options o str).head? = some q) :
    q ∈ str.splitOn slash ∧ hasPrefix o.text q := List.mem_filter.1 (List.mem_of_head? h)

theorem parseSizeCriteria_patterns (hasName : Bool) :
    (parseSizeCriteria hasName str ic).2.globPatterns = ic.globPatterns := by
  rw [parseSizeCriteria]
  split
  · split <;> rfl
  · rfl
  · split_ifs <;> rfl

theorem parseSizeCriteria_iff (hpieces : ∀ q ∈ str.splitOn slash, isOption q) (hasName : Bool) :
    (parseSizeCriteria hasName str ic).1 = .ok () ↔ options .size str = [] ∧ hasName = false ∨
      (options .size str).length % 2 = 1 ∧ ∃ q, (options .size str).head? = some q ∧ sizeAccepted q := by
  have houtcome := find_outcome .size hpieces
  rw [parseSizeCriteria]
  generalize indexCriteriaFindOption .size str = found at houtcome
  cases houtcome with
  | absent h =>
    have h : options .size str = [] := h
    rw [h]
    cases hasName with
    | true => exact iff_of_false nofun (by simp)
    | false => exact iff_of_true rfl (.inl ⟨rfl, rfl⟩)
  | error h heven =>
    have heven : (options .size str).length % 2 = 0 := heven
    refine iff_of_false nofun ?_
    rintro (⟨hnil, -⟩ | ⟨hodd, -⟩)
    · exact h hnil
    · omega
  | «at» q stop h hodd hstop =>
    have hhead : (options .size str).head? = some q := h
    have hne : options .size str ≠ [] := by
      intro hnil
      rw [hnil] at hhead
      cases hhead
    dsimp only
    rw [parseSize_append stop (hasPrefix_length (mem_options hhead).2)]
    cases hres : indexCriteriaParseSize q (q.length + 1) with
    | ok n => exact iff_of_true rfl (.inr ⟨hodd, q, hhead, n, hres⟩)
    | error e =>
      refine iff_of_false nofun ?_
      rintro (⟨hnil, -⟩ | ⟨-, q', hq', n, hn⟩)
      · exact hne hnil
      · rw [hhead] at hq'
        cases hq'
        rw [hres] at hn
        cases hn

/-- Some option there is. -/
theorem options_ne (hpieces : ∀ q ∈ str.splitOn slash, isOption q) (hname : options .name str = []) :
    options .size str ≠ [] := by
  intro hsize
  obtain ⟨q, qs, hsplit⟩ := List.exists_cons_of_ne_nil (List.splitOn_ne_nil slash str)
  have hq : q ∈ str.splitOn slash := by
    rw [hsplit]
    exact List.mem_cons_self
  have hopt := hpieces q hq
  rw [isOption, Bool.or_eq_true] at hopt
  obtain hopt | hopt := hopt
  · have hmem : q ∈ options .name str := List.mem_filter.2 ⟨hq, hopt⟩
    rw [hname] at hmem
    cases hmem
  · have hmem : q ∈ options .size str := List.mem_filter.2 ⟨hq, hopt⟩
    rw [hsize] at hmem
    cases hmem

/-- What becomes of the name option `q` -/
theorem parseName_option (q stop : Str) :
    ((indexCriteriaParseName u8Next junk (q ++ stop) ((q ++ stop).length - stop.length + 1) ic).1 = .ok () ↔
        if optValue q = [] then hasEmptyRule 0 junk = false else ∀ p ∈ (optValue q).splitOn colon, Pattern u8Next p) ∧
      ((indexCriteriaParseName u8Next junk (q ++ stop) ((q ++ stop).length - stop.length + 1) ic).1 = .ok () →
        (indexCriteriaParseName u8Next junk (q ++ stop) ((q ++ stop).length - stop.length + 1) ic).2 =
          { ic with globPatterns := some ((optValue q).splitOn colon) }) := by
  have hvalue : ((q ++ stop).take ((q ++ stop).length - stop.length + 1 - 1)).drop Opt.name.text.length = optValue q := by
    rw [cut_append, text_length]
    rfl
  by_cases hv : optValue q = []
  · rw [parseName_empty (hvalue.trans hv), hv, if_pos rfl]
    cases hasEmptyRule 0 junk with
    | true => exact ⟨iff_of_false nofun nofun, nofun⟩
    | false => exact ⟨iff_of_true rfl rfl, fun _ => rfl⟩
  · rw [if_neg hv]
    exact parseName_value hvalue hv

/-- What the code accepts, and the patterns it keeps -/
theorem parse_iff (junk : Str) (ht : Tidy ic) :
    ((indexCriteriaParse u8Next junk str ic).1 = .ok () ↔ Accepts u8Next junk str) ∧
      ((indexCriteriaParse u8Next junk str ic).1 = .ok () →
        (indexCriteriaParse u8Next junk str ic).2.globPatterns = patternsOf str) := by
  have hfree : (indexCriteriaFree ic).globPatterns = none := by
    rw [indexCriteriaFree]
    split_ifs with h
    · rfl
    · exact ht (by simpa using h)
  rw [indexCriteriaParse]
  by_cases hpieces : ∀ q ∈ str.splitOn slash, isOption q
  swap
  · have hinvalid : indexCriteriaContainsInvalidOptions str = true := by
      rw [← Bool.not_eq_false]
      exact (containsInvalid_iff str).not.2 hpieces
    rw [hinvalid]
    exact ⟨iff_of_false nofun fun h => hpieces h.pieces, nofun⟩
  rw [(containsInvalid_iff str).2 hpieces]
  have houtcome := find_outcome .name hpieces
  generalize indexCriteriaFindOption .name str = found at houtcome
  cases houtcome with
  | absent h =>
    have hnone : options .name str = [] := h
    dsimp only
    refine ⟨(parseSizeCriteria_iff hpieces false).trans ⟨?_, fun h => .inr ⟨h.odd, h.size⟩⟩, fun _ => ?_⟩
    · rintro (⟨hnil, -⟩ | ⟨hodd, hq⟩)
      · exact absurd hnil (options_ne hpieces hnone)
      · exact ⟨hpieces, .inl hnone, hodd, hq⟩
    · rw [if_neg (by simp), parseSizeCriteria_patterns, patternsOf, hnone]
      exact hfree
  | error h heven =>
    refine ⟨iff_of_false nofun fun h' => ?_, nofun⟩
    obtain hnil | ⟨hodd, -⟩ := h'.name
    · exact h hnil
    · have heven : (options .name str).length % 2 = 0 := heven
      omega
  | «at» q stop h hodd hstop =>
    have hhead : (options .name str).head? = some q := h
    have hodd : (options .name str).length % 2 = 1 := hodd
    have hsome : options .name str ≠ [] := by
      intro hnil
      rw [hnil] at hodd
      cases hodd
    obtain ⟨hname, hpatterns⟩ :=
      @parseName_option u8Next junk { indexCriteriaFree ic with haveCriteria := true } q stop
    dsimp only
    generalize indexCriteriaParseName u8Next junk (q ++ stop) ((q ++ stop).length - stop.length + 1)
      { indexCriteriaFree ic with haveCriteria := true } = res at hname hpatterns
    obtain ⟨ret, ic'⟩ := res
    cases ret with
    | error e =>
      refine ⟨iff_of_false nofun fun h' => ?_, nofun⟩
      obtain hnil | ⟨-, q', hq', hvalid⟩ := h'.name
      · exact hsome hnil
      · rw [hhead] at hq'
        cases hq'
        exact nomatch hname.2 hvalid
    | ok =>
      obtain rfl := hpatterns rfl
      refine ⟨(parseSizeCriteria_iff hpieces true).trans ⟨?_, fun h => .inr ⟨h.odd, h.size⟩⟩, fun _ => ?_⟩
      · rintro (⟨-, htrue⟩ | ⟨hodd', hq⟩)
        · cases htrue
        · exact ⟨hpieces, .inr ⟨hodd, q, hhead, hname.1 rfl⟩, hodd', hq⟩
      · rw [if_neg (by simp)]
        simp only
        rw [parseSizeCriteria_patterns, patternsOf, hhead]
        rfl

theorem accepts_iff : Accepts u8Next [] str ↔ ¬Refused u8Next str := by
  constructor
  · rintro h (⟨q, hq, hopt⟩ | ⟨o, hne, heven⟩ | ⟨hname, hsize⟩ | ⟨q, p, hq, hne, hp, hbad⟩ | ⟨q, hq, hbad⟩)
    · exact hopt (h.pieces q hq)
    · cases o with
      | name =>
        obtain hnil | ⟨hodd, -⟩ := h.name
        · exact hne hnil
        · omega
      | size =>
        have := h.odd
        omega
    · have hodd := h.odd
      rw [hsize] at hodd
      cases hodd
    · obtain hnil | ⟨-, q', hq', hvalid⟩ := h.name
      · rw [hnil] at hq
        cases hq
      · rw [hq] at hq'
        cases hq'
        rw [if_neg hne] at hvalid
        exact hbad (hvalid p hp)
    · obtain ⟨q', hq', hgood⟩ := h.size
      rw [hq] at hq'
      cases hq'
      exact hbad hgood
  · intro h
    have hpieces : ∀ q ∈ str.splitOn slash, isOption q := by
      intro q hq
      by_contra hopt
      exact h (.piece q hq hopt)
    have hodd : ∀ o, options o str ≠ [] → (options o str).length % 2 = 1 := by
      intro o hne
      by_contra hodd
      exact h (.even o hne (by omega))
    have hsize : options .size str ≠ [] := by
      by_cases hname : options .name str = []
      · exact options_ne hpieces hname
      · exact fun hsize => h (.alone hname hsize)
    refine ⟨hpieces, ?_, hodd .size hsize, ?_⟩
    · by_cases hname : options .name str = []
      · exact .inl hname
      obtain ⟨q, qs, hq⟩ := List.exists_cons_of_ne_nil hname
      have hhead : (options .name str).head? = some q := by
        rw [hq]
        rfl
      refine .inr ⟨hodd .name hname, q, hhead, ?_⟩
      split_ifs with hv
      · rfl
      · intro p hp
        by_contra hbad
        exact h (.pattern q p hhead hv hp hbad)
    · obtain ⟨q, qs, hq⟩ := List.exists_cons_of_ne_nil hsize
      have hhead : (options .size str).head? = some q := by
        rw [hq]
        rfl
      refine ⟨q, hhead, ?_⟩
      by_contra hbad
      exact h (.size q hhead hbad)

/-- The code does not check these: that an option is given once where the number of times is odd, and that a name has
a value. -/
structure Plain (str : Str) : Prop where
  once : ∀ o, (options o str).length ≤ 1
  value : ∀ q ∈ options .name str, optValue q ≠ []

theorem head_of_once {o : Opt} (h : (options o str).length ≤ 1) {q : Str} (hq : q ∈ options o str) :
    options o str = [q] := by
  match hoptions : options o str, h with
  | [], _ =>
    rw [hoptions] at hq
    cases hq
  | [r], _ =>
    rw [hoptions, List.mem_singleton] at hq
    rw [hq]

theorem Form.accepts (h : Form u8Next str) (junk : Str) : Accepts u8Next junk str := by
  have hsize : options .size str ≠ [] := by
    by_cases hname : options .name str = []
    · exact options_ne h.pieces hname
    · exact h.together hname
  obtain ⟨q, hq⟩ := List.exists_mem_of_ne_nil _ hsize
  have hone := head_of_once h.sizes hq
  refine ⟨h.pieces, ?_, by rw [hone]; rfl, q, by rw [hone]; rfl, h.accepted q hq⟩
  by_cases hname : options .name str = []
  · exact .inl hname
  obtain ⟨r, hr⟩ := List.exists_mem_of_ne_nil _ hname
  have hone := head_of_once h.names hr
  refine .inr ⟨by rw [hone]; rfl, r, by rw [hone]; rfl, ?_⟩
  have hpatterns := h.patterns r hr
  split_ifs with hv
  · rw [hv] at hpatterns
    exact absurd rfl (hpatterns [] List.mem_cons_self).1
  · exact hpatterns

theorem Form.plain (h : Form u8Next str) : Plain str where
  once o := by
    cases o
    · exact h.names
    · exact h.sizes
  value q hq hv := by
    have hpatterns := h.patterns q hq
    rw [hv] at hpatterns
    exact (hpatterns [] List.mem_cons_self).1 rfl

theorem Accepts.form (h : Accepts u8Next [] str) (hp : Plain str) : Form u8Next str where
  pieces := h.pieces
  names := hp.once .name
  sizes := hp.once .size
  together _ hnil := by
    have hodd := h.odd
    rw [hnil] at hodd
    cases hodd
  patterns q hq := by
    have hone := head_of_once (hp.once .name) hq
    obtain hnil | ⟨-, r, hr, hvalid⟩ := h.name
    · rw [hnil] at hq
      cases hq
    · rw [hone] at hr
      cases hr
      rwa [if_neg (hp.value q hq)] at hvalid
  accepted q hq := by
    have hone := head_of_once (hp.once .size) hq
    obtain ⟨r, hr, hgood⟩ := h.size
    rw [hone] at hr
    cases hr
    exact hgood

/-- The parser does what it is for where the string is refused for one of its checks, or has no option more than once
and no name without a value. -/
theorem parse_right_iff (u8Next : Str → Int × Nat) (str : Str) :
    Right u8Next str ↔ Refused u8Next str ∨ Plain str := by
  constructor
  · intro h
    by_cases hrefused : Refused u8Next str
    · exact .inl hrefused
    · have htidy : Tidy ⟨false, 0, none⟩ := fun _ => rfl
      have haccepts := (parse_iff [] htidy).1.2 (accepts_iff.2 hrefused)
      exact .inr ((h [] _ htidy).1.1 haccepts).plain
  · intro h junk ic ht
    obtain ⟨hparse, hpatterns⟩ := @parse_iff u8Next str ic junk ht
    refine ⟨hparse.trans ⟨fun haccepts => ?_, fun hform => hform.accepts junk⟩, fun hform =>
      hpatterns (hparse.2 (hform.accepts junk))⟩
    have hall : Accepts u8Next [] str := by
      refine { haccepts with name := haccepts.name.imp_right fun ⟨hodd, q, hq, hvalid⟩ => ⟨hodd, q, hq, ?_⟩ }
      split_ifs with hv
      · rfl
      · rwa [if_neg hv] at hvalid
    exact hall.form (h.resolve_left (accepts_iff.1 hall))

/-- An option that is given three times passes. -/
theorem threeSizes_wrong : ¬∃ u8Next : Str → Int × Nat, Right u8Next (bytes "size=1/size=2/size=3") := by
  rintro ⟨u8Next, h⟩
  have hsizes : options .size (bytes "size=1/size=2/size=3") = [bytes "size=1", bytes "size=2", bytes "size=3"] := by
    decide
  have htidy : Tidy ⟨false, 0, none⟩ := fun _ => rfl
  have haccepts : Accepts u8Next [] (bytes "size=1/size=2/size=3") :=
    { pieces := by decide
      name := .inl (by decide)
      odd := by rw [hsizes]; rfl
      size := ⟨bytes "size=1", by rw [hsizes]; rfl, 1, by decide⟩ }
  have hform := (h [] _ htidy).1.1 ((parse_iff [] htidy).1.2 haccepts)
  have honce := hform.sizes
  rw [hsizes] at honce
  exact absurd honce (by decide)

end Ltfs.CriteriaParse
