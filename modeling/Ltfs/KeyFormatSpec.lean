import Ltfs.KeyBytes

namespace Ltfs.KeyFormatSpec

open Base64Spec KeyFormat KeyList KeyBytes Lib.Base64 Split

/-- A string holds a pair with a key alias, and none with that key alias before it. -/
def IsFirst (s : Option Str) (keyalias : Str) (before : List Pair) (p : Pair) : Prop :=
  (∃ after, s = some (listText (before ++ p :: after))) ∧ p.keyAlias = keyalias ∧ ∀ q ∈ before, q.keyAlias ≠ keyalias

/-- A call with a key alias gives the key of the first pair of its own list, and fails if there is none. -/
def Served (r : Request) (reply : Reply) : Prop :=
  ∀ keyalias, r.keyalias = some keyalias →
    (reply.error = none → ∃ before p dk, IsFirst r.dkList keyalias before p ∧ p.HasKey dk ∧ reply.key = some dk) ∧
    ((∀ before p, ¬ IsFirst r.dkList keyalias before p) → reply.error ≠ none ∧ reply.key = none)

/-- If a call can come to the pair that it is for, there has been memory to decode the key of it, unless that key is
the zeros that are there without. -/
def KeyMemory (r : Request) : Prop :=
  ∀ s keyalias before p, r.dkList = some s → r.keyalias = some keyalias → IsFirst (some s) keyalias before p →
    s.length < 2 ^ 32 → r.memory.list = true → r.memory.key = true →
    r.memory.decodes before.length = true ∨ p.HasKey (List.replicate 32 0)

/-- Calls that come back, one after the other -/
inductive Calls : Manager → List (Request × Reply) → Manager → Prop
  | nil {m} : Calls m [] m
  | cons {m r reply m' cs m'' fuel} (hcall : keyFormatLtfsGetKey fuel r m = some (reply, m'))
    (hrest : Calls m' cs m'') : Calls m ((r, reply) :: cs) m''

/-- Between the calls there is no list. -/
structure Ready (m : Manager) : Prop where
  state : m.state = .initialized ∨ m.state = .cleared
  empty : m.dkList = []

variable {m m' : Manager} {r : Request} {reply : Reply} {fuel : Nat} {s keyalias : Str} {p q : Pair}
  {ps before before' : List Pair}

theorem ready_init : Ready keyFormatLtfsInit := ⟨.inl rfl, rfl⟩

theorem ready_clear (h : m.state = .set) : Ready (clear m) := ⟨.inr (if_pos h), rfl⟩

theorem text_inj (h : p.text = q.text) : p = q := by
  obtain ⟨hdigits, hrest⟩ := List.append_inj h (by rw [p.length_digits, q.length_digits])
  obtain ⟨hascii, hhex⟩ := List.append_inj (List.cons.inj (List.cons.inj hrest).2).2
    (by rw [p.length_ascii, q.length_ascii])
  cases p
  cases q
  cases hdigits
  cases hascii
  cases hhex
  rfl

/-- A string is the text of one list only. -/
theorem listText_inj {ps qs : List Pair} (h : listText ps = listText qs) : ps = qs := by
  induction ps generalizing qs with
  | nil =>
    cases qs with
    | nil => rfl
    | cons q qs =>
      have hlen := length_listText q qs
      rw [← h] at hlen
      exact absurd hlen (by decide)
  | cons p ps ih =>
    cases qs with
    | nil =>
      have hlen := length_listText p ps
      rw [h] at hlen
      exact absurd hlen (by decide)
    | cons q qs =>
      obtain ⟨htext, hrest⟩ := KeyList.text_inj h
      refine congrArg₂ _ (text_inj htext) ?_
      cases ps with
      | nil =>
        cases qs with
        | nil => rfl
        | cons q' qs => cases hrest
      | cons p' ps =>
        cases qs with
        | nil => cases hrest
        | cons q' qs =>
          rw [List.map_cons, List.map_cons, behind_cons, behind_cons] at hrest
          exact ih (List.cons.inj hrest).2

theorem append_cons_inj {P : Pair → Prop} {after after' : List Pair} (hp : P p) (hq : P q) (hb : ∀ x ∈ before, ¬ P x)
    (hb' : ∀ x ∈ before', ¬ P x) (h : before ++ p :: after = before' ++ q :: after') : before = before' ∧ p = q := by
  induction before generalizing before' with
  | nil =>
    cases before' with
    | nil => exact ⟨rfl, (List.cons.inj h).1⟩
    | cons x before' => exact absurd ((List.cons.inj h).1 ▸ hp) (hb' x List.mem_cons_self)
  | cons x before ih =>
    cases before' with
    | nil => exact absurd ((List.cons.inj h).1 ▸ hq) (hb x List.mem_cons_self)
    | cons y before' =>
      obtain ⟨hxy, hrest⟩ := List.cons.inj h
      obtain ⟨hbefore, hpq⟩ := ih (fun z hz => hb z (List.mem_cons_of_mem x hz))
        (fun z hz => hb' z (List.mem_cons_of_mem y hz)) hrest
      exact ⟨congrArg₂ _ hxy hbefore, hpq⟩

theorem IsFirst.unique {list : Option Str} (h : IsFirst list keyalias before p) (h' : IsFirst list keyalias before' q) :
    before = before' ∧ p = q := by
  obtain ⟨⟨after, hlist⟩, hp, hbefore⟩ := h
  obtain ⟨⟨after', hlist'⟩, hq, hbefore'⟩ := h'
  have htext := listText_inj (Option.some.inj (hlist.symm.trans hlist'))
  exact append_cons_inj (P := fun x => x.keyAlias = keyalias) hp hq hbefore hbefore' htext

/-- The pairs of a list, of which there are none in a string that is no list. -/
def PairsOf (list : Option Str) (ps : List Pair) : Prop :=
  list = some (listText ps) ∨ ps = [] ∧ ∀ qs, list ≠ some (listText qs)

theorem pairsOf_of_count {n : Nat} (h : getNumOfKeys fuel s = some (.ok n)) :
    ∃ ps, PairsOf (some s) ps ∧ ps.length = n ∧ (n ≠ 0 → s = listText ps ∧ s.length < 2 ^ 32) := by
  have haccepts : Accepts s n := ⟨fuel, h⟩
  by_cases hshort : s.length < 66
  · obtain rfl := (accepts_short hshort).mp haccepts
    refine ⟨[], ?_, rfl, fun h => absurd rfl h⟩
    by_cases hlist : ∃ qs, s = listText qs
    · obtain ⟨qs, rfl⟩ := hlist
      cases qs with
      | nil => exact .inl rfl
      | cons q qs => exact absurd (length_listText q qs) (Nat.not_le.mpr hshort)
    · exact .inr ⟨rfl, fun qs hqs => hlist ⟨qs, Option.some.inj hqs⟩⟩
  · have hlong : s.length < 2 ^ 32 := by
      by_contra hlong
      exact not_accepts (Nat.le_of_not_lt hlong) haccepts
    obtain ⟨p, ps, hps, rfl⟩ := (accepts_iff (Nat.le_of_not_lt hshort) hlong).mp haccepts
    exact ⟨p :: ps, .inl (congrArg some hps), rfl, fun _ => ⟨hps, hlong⟩⟩

theorem count_of_list {x : Except KeyFormat.Fault Nat} (hs : s = listText ps) (hlong : s.length < 2 ^ 32)
    (h : getNumOfKeys fuel s = some x) : x = .ok ps.length := by
  cases ps with
  | nil =>
    subst hs
    have hget : getNumOfKeys fuel (listText []) = some (.ok 0) := rfl
    rw [hget] at h
    exact (Option.some.inj h).symm
  | cons p ps =>
    have hlen := length_listText p ps
    rw [← hs] at hlen
    have haccepts : Accepts s (ps.length + 1) := (accepts_iff hlen hlong).mpr ⟨p, ps, hs, rfl⟩
    obtain ⟨fuel', hok⟩ := haccepts
    have h₁ := getNumOfKeys_mono (Nat.le_max_left fuel fuel') h
    rw [getNumOfKeys_mono (Nat.le_max_right fuel fuel') hok] at h₁
    exact (Option.some.inj h₁).symm

/-- The list that a call works on is the one that it is given. -/
theorem setDkList_cases {e : Except KeyFormat.Fault Unit} (h : Ready m) (hset : setDkList fuel r m = some (e, m')) :
    ((∃ f, e = .error f) ∧ Ready m' ∧
      ∀ ps, r.dkList = some (listText ps) → (listText ps).length < 2 ^ 32 → r.memory.list = false) ∨
    ∃ ps, PairsOf r.dkList ps ∧ (ps ≠ [] → (listText ps).length < 2 ^ 32 ∧ r.memory.list = true) ∧ e = .ok () ∧
      m' = ⟨.set, entries r.memory.decodes 0 ps⟩ := by
  have hstate : ¬ (m.state ≠ .initialized ∧ m.state ≠ .cleared) := by
    rintro ⟨hi, hc⟩
    exact h.state.elim hi hc
  have hempty : { m with state := KflState.set } = (⟨.set, []⟩ : Manager) := by rw [h.empty]
  rw [setDkList, if_neg hstate, hempty] at hset
  cases hlist : r.dkList with
  | none =>
    rw [hlist] at hset
    obtain ⟨rfl, rfl⟩ := Prod.mk.inj (Option.some.inj hset)
    exact .inr ⟨[], .inr ⟨rfl, nofun⟩, fun h => absurd rfl h, rfl, rfl⟩
  | some s =>
    simp only [hlist] at hset
    cases hcount : getNumOfKeys fuel s with
    | none =>
      rw [hcount] at hset
      cases hset
    | some c =>
      cases c with
      | error f =>
        rw [hcount] at hset
        obtain ⟨rfl, rfl⟩ := Prod.mk.inj (Option.some.inj hset)
        refine .inl ⟨⟨f, rfl⟩, h, fun ps hps hlong => ?_⟩
        obtain rfl := Option.some.inj hps
        cases count_of_list rfl hlong hcount
      | ok n =>
        obtain ⟨ps, hps, rfl, hpairs⟩ := pairsOf_of_count hcount
        simp only [hcount] at hset
        split_ifs at hset with hzero hmemory
        · obtain ⟨rfl, rfl⟩ := Prod.mk.inj (Option.some.inj hset)
          obtain rfl := List.length_eq_zero_iff.mp hzero
          exact .inr ⟨[], hps, fun h => absurd rfl h, rfl, rfl⟩
        · obtain ⟨rfl, hlong⟩ := hpairs hzero
          obtain ⟨rfl, rfl⟩ := Prod.mk.inj (Option.some.inj hset)
          refine .inr ⟨ps, hps, fun _ => ⟨hlong, hmemory⟩, rfl, ?_⟩
          rw [readKeys_entries hlong (by rw [List.drop_zero])]
        · obtain ⟨rfl, rfl⟩ := Prod.mk.inj (Option.some.inj hset)
          refine .inl ⟨⟨_, rfl⟩, ⟨h.state, rfl⟩, fun _ _ _ => ?_⟩
          rw [← Bool.not_eq_true]
          exact hmemory

theorem call_cases (h : Ready m) (hcall : keyFormatLtfsGetKey fuel r m = some (reply, m')) :
    Ready m' ∧ ((∃ f, reply = ⟨some f, r.keyalias, none⟩ ∧
        ∀ ps, r.dkList = some (listText ps) → (listText ps).length < 2 ^ 32 → r.memory.list = false) ∨
      ∃ ps, PairsOf r.dkList ps ∧ (ps ≠ [] → (listText ps).length < 2 ^ 32 ∧ r.memory.list = true) ∧
        reply = getKey r ⟨.set, entries r.memory.decodes 0 ps⟩) := by
  rw [keyFormatLtfsGetKey] at hcall
  cases hset : setDkList fuel r m with
  | none =>
    rw [hset] at hcall
    cases hcall
  | some c =>
    obtain ⟨e, m₁⟩ := c
    rw [hset] at hcall
    obtain ⟨⟨f, rfl⟩, hready, hno⟩ | ⟨ps, hps, hroom, rfl, rfl⟩ := setDkList_cases h hset
    · obtain ⟨rfl, rfl⟩ := Prod.mk.inj (Option.some.inj hcall)
      exact ⟨hready, .inl ⟨f, rfl, hno⟩⟩
    · obtain ⟨rfl, rfl⟩ := Prod.mk.inj (Option.some.inj hcall)
      exact ⟨ready_clear rfl, .inr ⟨ps, hps, hroom, rfl⟩⟩

/-- The search of the entries finds the first pair with the key alias. -/
theorem find_entries (decodes : Nat → Bool) (keyalias : Str) (ps : List Pair) (i : Nat) :
    (∃ before p after, ps = before ++ p :: after ∧ p.keyAlias = keyalias ∧ (∀ q ∈ before, q.keyAlias ≠ keyalias) ∧
      (entries decodes i ps).find? (fun k => k.dki = keyalias) = some ⟨keyOr (decodes (i + before.length)) p, keyalias⟩) ∨
    (∀ p ∈ ps, p.keyAlias ≠ keyalias) ∧ (entries decodes i ps).find? (fun k => k.dki = keyalias) = none := by
  induction ps generalizing i with
  | nil => exact .inr ⟨nofun, rfl⟩
  | cons p ps ih =>
    rw [entries, List.find?_cons]
    by_cases hp : p.keyAlias = keyalias
    · left
      exact ⟨[], p, ps, rfl, hp, nofun, by simp [hp]⟩
    · have hskip : decide (p.keyAlias = keyalias) = false := decide_eq_false hp
      simp only [hskip]
      obtain ⟨before, q, after, rfl, hq, hbefore, hfind⟩ | ⟨hnone, hfind⟩ := ih (i + 1)
      · refine .inl ⟨p :: before, q, after, rfl, hq, List.forall_mem_cons.mpr ⟨hp, hbefore⟩, ?_⟩
        rw [hfind, List.length_cons]
        congr 4
        omega
      · exact .inr ⟨List.forall_mem_cons.mpr ⟨hp, hnone⟩, hfind⟩

theorem PairsOf.isFirst {list : Option Str} (h : PairsOf list ps) :
    IsFirst list keyalias before p ↔
      (∃ after, ps = before ++ p :: after) ∧ p.keyAlias = keyalias ∧ ∀ q ∈ before, q.keyAlias ≠ keyalias := by
  refine and_congr_left fun _ => exists_congr fun after => ?_
  obtain rfl | ⟨rfl, hno⟩ := h
  · rw [Option.some.injEq]
    exact ⟨listText_inj, congrArg listText⟩
  · exact iff_of_false (hno _) (by simp)

/-- A call on a list that it has read -/
theorem served_findKey (hps : PairsOf r.dkList ps)
    (hroom : ps ≠ [] → (listText ps).length < 2 ^ 32 ∧ r.memory.list = true) (halias : r.keyalias = some keyalias) :
    Served r (findKey r keyalias ⟨.set, entries r.memory.decodes 0 ps⟩) ↔ KeyMemory r := by
  obtain ⟨before, p, after, hsplit, hp, hbefore, hfind⟩ | ⟨hnone, hfind⟩ :=
    find_entries r.memory.decodes keyalias ps 0
  · have hfirst : IsFirst r.dkList keyalias before p := hps.isFirst.mpr ⟨⟨after, hsplit⟩, hp, hbefore⟩
    have hlist : r.dkList = some (listText ps) := by
      obtain ⟨⟨after', hlist⟩, _⟩ := hfirst
      obtain hlist' | ⟨rfl, _⟩ := hps
      · exact hlist'
      · cases before <;> cases hsplit
    rw [Nat.zero_add] at hfind
    rw [findKey, hfind]
    constructor
    · intro h s a before' q hs ha hq _ _ hkey
      obtain rfl := Option.some.inj (halias.symm.trans ha)
      rw [← hs] at hq
      obtain ⟨rfl, rfl⟩ := hfirst.unique hq
      simp only [if_pos hkey] at h
      obtain ⟨_, _, dk, hfirst', hdk, heq⟩ := (h keyalias halias).1 rfl
      obtain ⟨rfl, rfl⟩ := hfirst.unique hfirst'
      obtain rfl := Option.some.inj heq
      cases hmemory : r.memory.decodes before.length with
      | true => exact .inl rfl
      | false =>
        rw [hmemory, keyOr_false] at hdk
        exact .inr hdk
    · intro h a ha
      obtain rfl := Option.some.inj (halias.symm.trans ha)
      refine ⟨fun herr => ?_, fun hno => absurd hfirst (hno before p)⟩
      by_cases hkey : r.memory.key = true
      · simp only [if_pos hkey] at herr ⊢
        refine ⟨before, p, _, hfirst, ?_, rfl⟩
        have hne : ps ≠ [] := by
          rintro rfl
          cases before <;> cases hsplit
        obtain ⟨hlong, hmemory⟩ := hroom hne
        cases hdecodes : r.memory.decodes before.length with
        | true =>
          rw [keyOr_true]
          exact hasKey_outputLoop p
        | false =>
          rw [hlist] at hfirst
          have hzero := h _ keyalias before p hlist halias hfirst hlong hmemory hkey
          rw [hdecodes] at hzero
          rw [keyOr_false]
          exact hzero.resolve_left Bool.false_ne_true
      · simp only [if_neg hkey] at herr
        cases herr
  · rw [findKey, hfind]
    refine iff_of_true (fun _ _ => ⟨nofun, fun _ => ⟨nofun, rfl⟩⟩) ?_
    intro s a before p hs ha hfirst
    obtain rfl := Option.some.inj (halias.symm.trans ha)
    rw [← hs] at hfirst
    obtain ⟨⟨after, rfl⟩, hp, _⟩ := hps.isFirst.mp hfirst
    exact absurd hp (hnone p (by simp))

theorem served_iff (h : Ready m) (hcall : keyFormatLtfsGetKey fuel r m = some (reply, m')) :
    Served r reply ↔ KeyMemory r := by
  obtain ⟨-, ⟨f, rfl, hno⟩ | ⟨ps, hps, hroom, rfl⟩⟩ := call_cases h hcall
  · refine iff_of_true (fun keyalias _ => ⟨nofun, fun _ => ⟨nofun, rfl⟩⟩) ?_
    intro s keyalias before p hlist _ hfirst hlong hmemory _
    obtain ⟨⟨after, hs⟩, _⟩ := hfirst
    obtain rfl := Option.some.inj hs
    rw [hno _ hlist hlong] at hmemory
    cases hmemory
  · rw [getKey]
    cases halias : r.keyalias with
    | none => exact iff_of_true (fun a ha => nomatch halias.symm.trans ha) fun _ a _ _ _ ha => nomatch halias.symm.trans ha
    | some keyalias => exact served_findKey hps hroom halias

theorem calls_served {calls : List (Request × Reply)} (h : Ready m) (hcalls : Calls m calls m') :
    (∀ c ∈ calls, Served c.1 c.2) ↔ ∀ c ∈ calls, KeyMemory c.1 := by
  induction hcalls with
  | nil => exact iff_of_true (List.forall_mem_nil _) (List.forall_mem_nil _)
  | cons hcall _ ih =>
    obtain ⟨hready, -⟩ := call_cases h hcall
    rw [List.forall_mem_cons, List.forall_mem_cons]
    exact and_congr (served_iff h hcall) (ih hready)

/-- The syntax check is right for a string, and every call of a run gives the key that it is asked for, just if the
string has a length that the check can deal with and there is memory to decode the keys that are asked for. -/
theorem keys_iff (s : Str) {calls : List (Request × Reply)} (h : Calls keyFormatLtfsInit calls m) :
    (Counted s ∧ ∀ c ∈ calls, Served c.1 c.2) ↔
      ((s = [] ∨ 66 ≤ s.length) ∧ (s.length < 2 ^ 32 ∨ ¬ ∃ ps, s = listText ps)) ∧ ∀ c ∈ calls, KeyMemory c.1 := by
  rw [counted_iff, calls_served ready_init h]

/-- A list of one pair -/
def oneKey : Str :=
  List.replicate 43 81 ++ [pad, colon] ++ [97, 98, 99] ++ List.replicate 18 48

/-- It is asked for the key of that pair. -/
def oneRequest : Request :=
  ⟨some ([97, 98, 99] ++ List.replicate 9 0), some oneKey, none, ⟨true, true, true, fun _ => true⟩⟩

def oneReply : Reply × Manager :=
  (⟨none, oneRequest.keyalias, some (convertKey true (List.replicate 43 81 ++ [pad]))⟩, ⟨.cleared, []⟩)

theorem oneRequest_call : keyFormatLtfsGetKey 1 oneRequest keyFormatLtfsInit = some oneReply := by decide +kernel

theorem keys_iff_one : Calls keyFormatLtfsInit [(oneRequest, oneReply.1)] oneReply.2 ∧
    ((Counted oneKey ∧ ∀ c ∈ [(oneRequest, oneReply.1)], Served c.1 c.2) ↔
      ((oneKey = [] ∨ 66 ≤ oneKey.length) ∧ (oneKey.length < 2 ^ 32 ∨ ¬ ∃ ps, oneKey = listText ps)) ∧
        ∀ c ∈ [(oneRequest, oneReply.1)], KeyMemory c.1) :=
  ⟨.cons oneRequest_call .nil, keys_iff oneKey (.cons oneRequest_call .nil)⟩

/-- A string that is too short for a pair is taken for a list of no keys. -/
theorem short_counted : Accepts [97, 98, 99] 0 ∧ ¬ Counted [97, 98, 99] := by
  have haccepts : Accepts [97, 98, 99] 0 := ⟨0, rfl⟩
  refine ⟨haccepts, fun h => ?_⟩
  obtain ⟨ps, hps, hlen⟩ := (h 0).mp haccepts
  rw [List.length_eq_zero_iff.mp hlen] at hps
  cases hps

end Ltfs.KeyFormatSpec
