import Ltfs.SafeName
import Ltfs.Lib.Split
import Ltfs.Lib.Run
import Ltfs.Lib.Decimal
import Mathlib.Data.List.Nodup
import Mathlib.Data.List.Perm.Subperm

namespace Ltfs.SafeNameSpec

open SafeName Split Lib.Run

variable {name base t : List Char} {ext : Option (List Char)} {d : Bool} {n : Nat} {c : Char}

/-- A name without an extension, or a base name and an extension of which one has no dot: the base name of a
device, the extension of another name. -/
theorem splitName_cases (d : Bool) (name : List Char) :
    splitName d name = (name, none) ∧ ('.' ∈ name → d = false) ∨
      ∃ b e, splitName d name = (b, some e) ∧ name = b ++ '.' :: e ∧ (d = true → '.' ∉ b) ∧ (d = false → '.' ∉ e) := by
  have hne : ∀ s : List Char, '.' ∉ s → ∀ x ∈ s, (decide (x ≠ '.')) = true := by
    intro s hs x hx
    rw [decide_eq_true_iff]
    rintro rfl
    exact hs hx
  by_cases hdot : '.' ∈ name
  · cases d with
    | true =>
      obtain ⟨b, e, rfl, hb⟩ := List.eq_append_cons_of_mem hdot
      refine .inr ⟨b, e, ?_, rfl, fun _ => hb, nofun⟩
      rw [splitName, if_neg (not_not.mpr hdot), if_pos rfl, List.takeWhile_append_of_pos (hne b hb),
        List.dropWhile_append_of_pos (hne b hb), List.takeWhile_cons_of_neg (by simp),
        List.dropWhile_cons_of_neg (by simp), List.append_nil, List.tail_cons]
    | false =>
      obtain ⟨e, b, hr, he⟩ := List.eq_append_cons_of_mem (List.mem_reverse.mpr hdot)
      have hname : name = b.reverse ++ '.' :: e.reverse := by
        rw [← List.reverse_reverse name, hr, List.reverse_append, List.reverse_cons, List.append_assoc]
        rfl
      have hdrop : name.rdropWhile (· ≠ '.') = b.reverse ++ ['.'] := by
        rw [List.rdropWhile, hr, List.dropWhile_append_of_pos (hne e he), List.dropWhile_cons_of_neg (by simp),
          List.reverse_cons]
      have htake : name.rtakeWhile (· ≠ '.') = e.reverse := by
        rw [List.rtakeWhile, hr, List.takeWhile_append_of_pos (hne e he), List.takeWhile_cons_of_neg (by simp),
          List.append_nil]
      rw [splitName, if_neg (not_not.mpr hdot), if_neg Bool.false_ne_true, hdrop, htake, List.dropLast_concat]
      by_cases hb : b.reverse = []
      · exact .inl ⟨if_pos hb, fun _ => rfl⟩
      · exact .inr ⟨b.reverse, e.reverse, if_neg hb, hname, nofun, fun _ => by simpa using he⟩
  · exact .inl ⟨if_pos hdot, fun h => absurd h hdot⟩

theorem join_split (d : Bool) (name : List Char) : join (splitName d name).1 (splitName d name).2 = name := by
  obtain ⟨h, -⟩ | ⟨b, e, h, hname, -⟩ := splitName_cases d name
  · rw [h, join]
  · rw [h, join, hname]

theorem length_join (base : List Char) (ext : Option (List Char)) :
    (join base ext).length = base.length + extLength ext + if ext = none then 0 else 1 := by
  cases ext with
  | none => simp [join, extLength]
  | some e => simp [join, extLength]; omega

theorem two_le_suffix (n : Nat) : 2 ≤ (suffixString n).length := by
  have h := @Nat.length_toDigits_pos 10 n
  rw [suffixString, List.length_cons]
  omega

/-- The dot makes the name too long. -/
def Overlong (base : List Char) (ext : Option (List Char)) (n : Nat) : Prop :=
  n ≠ 0 ∧ ext ≠ none ∧ base.length + extLength ext + (suffixString n).length = ltfsFilenameMax

/-- A candidate is the start of the base name, the suffix and the start of the extension. -/
theorem generate_form (h : generateTargetFileName base ext n d = some t) (hn : n ≠ 0) :
    ∃ b e, t = join (b ++ suffixString n) e ∧ b <+: base ∧
      (ext = none ∧ e = none ∨ ∃ x y, ext = some x ∧ e = some y ∧ y <+: x) := by
  have hself : ∀ e : Option (List Char), e = none ∧ e = none ∨ ∃ x y, e = some x ∧ e = some y ∧ y <+: x := by
    intro e
    cases e with
    | none => exact .inl ⟨rfl, rfl⟩
    | some x => exact .inr ⟨x, x, rfl, rfl, List.prefix_refl x⟩
  rw [generateTargetFileName, if_pos hn] at h
  simp only at h
  split_ifs at h with hlong hbase hext
  · exact ⟨_, _, (Option.some.inj h).symm, List.take_prefix _ _, hself ext⟩
  · refine ⟨_, _, (Option.some.inj h).symm, List.prefix_refl _, ?_⟩
    cases ext with
    | none => exact .inl ⟨rfl, rfl⟩
    | some x => exact .inr ⟨x, _, rfl, rfl, List.take_prefix _ _⟩
  · exact ⟨_, _, (Option.some.inj h).symm, List.prefix_refl _, hself ext⟩

theorem generate_length (hlen : (join base ext).length ≤ ltfsFilenameMax)
    (h : generateTargetFileName base ext n d = some t) :
    t.length ≤ ltfsFilenameMax ↔ ¬ Overlong base ext n := by
  rw [length_join] at hlen
  have hs := two_le_suffix n
  rw [Overlong]
  by_cases hn : n ≠ 0
  · rw [generateTargetFileName, if_pos hn] at h
    simp only at h
    split_ifs at h with hlong hbase hext
    · obtain rfl := Option.some.inj h
      rw [length_join, List.length_append, List.length_take]
      omega
    · obtain rfl := Option.some.inj h
      cases ext with
      | none => cases hext
      | some e =>
        simp only [extLength, Option.getD_some] at hext hlong hlen ⊢
        simp only [Option.map_some, join, List.length_append, List.length_cons, List.length_take]
        simp at hlen ⊢
        omega
    · obtain rfl := Option.some.inj h
      rw [length_join, List.length_append]
      cases ext with
      | none => simp [extLength] at hlong ⊢; omega
      | some e => simp at hlong hlen ⊢; omega
  · rw [generateTargetFileName, if_neg hn] at h
    split_ifs at h
    obtain rfl := Option.some.inj h
    rw [length_join]
    exact iff_of_true hlen fun ho => hn ho.1

/-- A base name of a device is short, so that there is always something to trim. -/
theorem generate_ne_none (hn : n < 2 ^ 31) (hbase : d = true → base.length ≤ 6) (hne : join base ext ≠ []) :
    generateTargetFileName base ext n d ≠ none := by
  have hdigits : (Nat.toDigits 10 n).length ≤ 10 :=
    (Nat.length_toDigits_le_iff (by decide) (by decide)).mpr (Nat.lt_trans hn (by decide))
  have hs : (suffixString n).length ≤ 11 := by
    rw [suffixString, List.length_cons]
    omega
  rw [generateTargetFileName]
  by_cases h0 : n ≠ 0
  · rw [if_pos h0]
    simp only
    split_ifs with hlong hb he
    · simp
    · simp
    · exfalso
      cases d with
      | false => 
        simp [ltfsFilenameMax] at hlong hb
        omega
      | true =>
        have := hbase rfl
        simp [ltfsFilenameMax] at hlong
        omega
    · simp
  · rw [if_neg h0, if_neg hne]
    simp

/-- The characters that names can be told apart by, whatever the case of their letters is. -/
def isMark (c : Char) : Bool :=
  c = '.' || c = '~' || c.isDigit

theorem marks_suffix (n : Nat) : (suffixString n).filter isMark = suffixString n := by
  refine List.filter_eq_self.mpr fun c hc => ?_
  rw [suffixString, List.mem_cons] at hc
  rcases hc with rfl | hc
  · rfl
  · simp [isMark, Nat.isDigit_of_mem_toDigits (by decide) (by decide) hc]

theorem not_mem_digits (hc : c.isDigit = false) (n : Nat) : c ∉ Nat.toDigits 10 n := by
  intro h
  rw [Nat.isDigit_of_mem_toDigits (by decide) (by decide) h] at hc
  cases hc

theorem suffix_inj {b b' : List Char} {m : Nat} (h : b ++ suffixString n = b' ++ suffixString m) : n = m := by
  obtain ⟨-, hd⟩ := append_sep_inj (not_mem_digits rfl n) (not_mem_digits rfl m) h
  exact Lib.Decimal.toDigits_inj.mp hd

theorem not_mem_marks (h : c ∉ base) : c ∉ base.filter isMark :=
  fun hm => h (List.mem_of_mem_filter hm)

/-- Two candidates for one name have different marks. -/
theorem generate_inj {m : Nat} {u : List Char} (hext : ∀ e, ext = some e → (d = true → '.' ∉ base) ∧ (d = false → '.' ∉ e))
    (hn : n ≠ 0) (hm : m ≠ 0) (ht : generateTargetFileName base ext n d = some t)
    (hu : generateTargetFileName base ext m d = some u) (h : t.filter isMark = u.filter isMark) : n = m := by
  obtain ⟨b, e, rfl, hb, he⟩ := generate_form ht hn
  obtain ⟨b', e', rfl, hb', he'⟩ := generate_form hu hm
  cases hx : ext with
  | none =>
    obtain ⟨-, rfl⟩ := he.resolve_right (by simp [hx])
    obtain ⟨-, rfl⟩ := he'.resolve_right (by simp [hx])
    simp only [join, List.filter_append, marks_suffix] at h
    exact suffix_inj h
  | some x =>
    obtain ⟨_, y, hy, rfl, hyx⟩ := he.resolve_left (by simp [hx])
    obtain ⟨_, z, hz, rfl, hzx⟩ := he'.resolve_left (by simp [hx])
    obtain rfl := Option.some.inj (hx.symm.trans hy)
    obtain rfl := Option.some.inj (hx.symm.trans hz)
    have hdot : isMark '.' = true := rfl
    simp only [join, List.filter_append, List.filter_cons, hdot, if_true, marks_suffix] at h
    cases d with
    | true =>
      have hbase := (hext x hx).1 rfl
      have hside : ∀ b k, b <+: base → '.' ∉ b.filter isMark ++ suffixString k := by
        intro b k hb hmem
        rcases List.mem_append.mp hmem with hmem | hmem
        · exact hbase (hb.subset (List.mem_of_mem_filter hmem))
        · rw [suffixString, List.mem_cons] at hmem
          exact not_mem_digits rfl k (hmem.resolve_left (by decide))
      obtain ⟨hs, -⟩ := sep_append_inj (hside b n hb) (hside b' m hb') h
      exact suffix_inj hs
    | false =>
      have hx := (hext x hx).2 rfl
      have hside : ∀ y, y <+: x → '.' ∉ y.filter isMark := fun y hy => not_mem_marks fun hm => hx (hy.subset hm)
      obtain ⟨hs, -⟩ := append_sep_inj (hside y hyx) (hside z hzx) h
      exact suffix_inj hs

theorem digit_valid (h : c.isDigit = true) : isInvalid c = false := by
  have hr : 48 ≤ c.toNat := by
    simp only [Char.isDigit, Bool.and_eq_true, decide_eq_true_iff] at h
    exact h.1
  rw [isInvalid, Bool.or_eq_false_iff, Bool.and_eq_false_iff]
  constructor
  · right
    rw [decide_eq_false_iff_not]
    omega
  · rw [← Bool.not_eq_true, List.contains_iff_mem]
    intro hm
    simp only [List.mem_cons, List.not_mem_nil, or_false] at hm
    rcases hm with rfl | rfl | rfl | rfl | rfl | rfl | rfl | rfl <;> cases h

theorem suffix_valid (n : Nat) : ∀ c ∈ suffixString n, isInvalid c = false := by
  intro c hc
  rcases List.mem_cons.mp hc with rfl | hc
  · rfl
  · exact digit_valid (Nat.isDigit_of_mem_toDigits (by decide) (by decide) hc)

theorem generate_valid (hbase : ∀ c ∈ base, isInvalid c = false) (hext : ∀ e, ext = some e → ∀ c ∈ e, isInvalid c = false)
    (h : generateTargetFileName base ext n d = some t) : ∀ c ∈ t, isInvalid c = false := by
  have hjoin : ∀ (b : List Char) (e : Option (List Char)), (∀ c ∈ b, isInvalid c = false) →
      (∀ x, e = some x → ∀ c ∈ x, isInvalid c = false) → ∀ c ∈ join b e, isInvalid c = false := by
    intro b e hb he c hc
    cases e with
    | none => exact hb c hc
    | some x =>
      rcases List.mem_append.mp hc with hc | hc
      · exact hb c hc
      · rcases List.mem_cons.mp hc with rfl | hc
        · rfl
        · exact he x rfl c hc
  by_cases hn : n = 0
  · rw [generateTargetFileName, if_neg (not_not.mpr hn)] at h
    split_ifs at h
    obtain rfl := Option.some.inj h
    exact hjoin base ext hbase hext
  · obtain ⟨b, e, rfl, hb, he⟩ := generate_form h hn
    refine hjoin _ e ?_ ?_
    · intro c hc
      rcases List.mem_append.mp hc with hc | hc
      · exact hbase c (hb.subset hc)
      · exact suffix_valid n c hc
    · rintro x rfl c hc
      obtain ⟨x', y, hx', hy, hyx⟩ := he.resolve_left (by simp)
      obtain rfl := Option.some.inj hy
      exact hext x' hx' c (hyx.subset hc)

theorem replaced_valid (name : List Char) : ∀ c ∈ (replaceInvalidChars name).1, isInvalid c = false := by
  intro c hc
  obtain ⟨x, -, rfl⟩ := List.mem_map.mp hc
  by_cases hx : isInvalid x = true
  · rw [if_pos hx]
    rfl
  · rw [if_neg hx]
    exact Bool.eq_false_iff.mpr hx

theorem length_replaced (name : List Char) : (replaceInvalidChars name).1.length = name.length :=
  List.length_map _

theorem not_mem_replaced {s : List Char} (h : '.' ∉ s) : '.' ∉ s.map fun c => if isInvalid c then '_' else c := by
  intro hm
  obtain ⟨c, hc, he⟩ := List.mem_map.mp hm
  split_ifs at he
  · cases he
  · exact h (he ▸ hc)

theorem device_short : ∀ dev ∈ dosdevList, dev.toList.length ≤ 6 ∧ '.' ∉ dev.toList := by
  decide +kernel

/-- A device name is a short name without a dot, alone or with a dot behind it. -/
theorem dosdev_form (h : isDosdev name = true) : ∃ s, s.length ≤ 6 ∧ '.' ∉ s ∧ (name = s ∨ ∃ r, name = s ++ '.' :: r) := by
  obtain ⟨dev, hdev, hn⟩ := List.any_eq_true.mp h
  obtain ⟨hlen, hdot⟩ := device_short dev hdev
  simp only [namesDevice, Bool.and_eq_true, Bool.or_eq_true, decide_eq_true_iff] at hn
  obtain ⟨hup, hrest⟩ := hn
  have hsplit := List.take_append_drop dev.toList.length name
  refine ⟨name.take dev.toList.length, ?_, ?_, ?_⟩
  · rw [List.length_take]
    omega
  · intro hm
    exact hdot (hup ▸ List.mem_map.mpr ⟨'.', hm, rfl⟩)
  · cases hr : name.drop dev.toList.length with
    | nil =>
      rw [hr, List.append_nil] at hsplit
      exact .inl hsplit.symm
    | cons c r =>
      rw [hr] at hrest hsplit
      obtain rfl : c = '.' := by simpa using hrest
      exact .inr ⟨r, hsplit.symm⟩

/-- The base name of a device is the device. -/
theorem base_short (h : isDosdev name = true) : (baseOf name).length ≤ 6 := by
  obtain ⟨s, hs, hdot, hname⟩ := dosdev_form h
  have hds := not_mem_replaced hdot
  rw [baseOf, h]
  rcases hname with rfl | ⟨r, rfl⟩
  · rw [splitName, replaceInvalidChars, if_pos hds, List.length_map]
    exact hs
  · obtain ⟨-, hd⟩ | ⟨b, e, hsplit, he, hb, -⟩ := splitName_cases true (replaceInvalidChars (s ++ '.' :: r)).1
    · have hmem : '.' ∈ (replaceInvalidChars (s ++ '.' :: r)).1 :=
        List.mem_map.mpr ⟨'.', List.mem_append_right _ List.mem_cons_self, rfl⟩
      cases hd hmem
    · rw [hsplit]
      rw [replaceInvalidChars, List.map_append, List.map_cons] at he
      obtain ⟨rfl, -⟩ := sep_append_inj hds (hb rfl) he
      rwa [List.length_map]

variable {K : Type} (key : List Char → K)

section Update

variable (parent : Option (List (List Char))) (name : List Char)

def candidate (n : Nat) : Option (List Char) :=
  generateTargetFileName (baseOf name) (extensionOf name) n (isDosdev name)

/-- The directory has a name of this key already. -/
def Taken (n : Nat) : Prop :=
  ∃ entries t, parent = some entries ∧ candidate name n = some t ∧ t.length ≤ ltfsFilenameMax ∧
    key t ∈ entries.map key

/-- How the loop ends with a suffix that is not taken. -/
def outcome (n : Nat) : Result :=
  match candidate name n with
  | none => .unnamed
  | some t => if parent ≠ none ∧ ltfsFilenameMax < t.length then .unnamed else .named t

abbrev loop [DecidableEq K] (fuel suffix : Nat) : Result :=
  nameLoop key parent (baseOf name) (extensionOf name) (isDosdev name) fuel suffix

/-- A round ends the loop or finds its suffix taken. -/
theorem loop_succ [DecidableEq K] (fuel n : Nat) :
    Taken key parent name n ∧ loop key parent name (fuel + 1) n = loop key parent name fuel (n + 1) ∨
      ¬ Taken key parent name n ∧ loop key parent name (fuel + 1) n = outcome parent name n := by
  have hc : generateTargetFileName (baseOf name) (extensionOf name) n (isDosdev name) = candidate name n := rfl
  rw [loop, nameLoop, hc, outcome]
  cases ht : candidate name n with
  | none =>
    refine .inr ⟨?_, rfl⟩
    rintro ⟨_, t, -, h, -⟩
    cases ht.symm.trans h
  | some t =>
    cases parent with
    | none =>
      refine .inr ⟨?_, by simp⟩
      rintro ⟨_, _, h, -⟩
      cases h
    | some entries =>
      by_cases hl : ltfsFilenameMax < t.length
      · refine .inr ⟨?_, by simp [hl]⟩
        rintro ⟨_, u, -, hu, hlen, -⟩
        obtain rfl := Option.some.inj (ht.symm.trans hu)
        exact absurd hlen (Nat.not_le.mpr hl)
      · by_cases hk : key t ∈ entries.map key
        · exact .inl ⟨⟨entries, t, rfl, ht, Nat.le_of_not_lt hl, hk⟩, by simp only [if_neg hl, if_pos hk]⟩
        · refine .inr ⟨?_, by simp [hl, hk]⟩
          rintro ⟨e, u, he, hu, -, hmem⟩
          obtain rfl := Option.some.inj he
          obtain rfl := Option.some.inj (ht.symm.trans hu)
          exact hk hmem

/-- The loop ends with the first suffix that is not taken, if its rounds reach that far. -/
theorem loop_cases [DecidableEq K] (fuel s : Nat) : (∀ n, s ≤ n → n < s + fuel → Taken key parent name n) ∨
    ∃ n, s ≤ n ∧ n < s + fuel ∧ (∀ k, s ≤ k → k < n → Taken key parent name k) ∧
      ¬ Taken key parent name n ∧ loop key parent name fuel s = outcome parent name n := by
  induction fuel generalizing s with
  | zero => exact .inl fun n h₁ h₂ => by omega
  | succ fuel ih =>
    rcases loop_succ key parent name fuel s with ⟨ht, hl⟩ | ⟨ht, hl⟩
    · have hstep : ∀ k, s ≤ k → (s + 1 ≤ k → Taken key parent name k) → Taken key parent name k := by
        intro k hk h
        by_cases he : k = s
        · exact he ▸ ht
        · exact h (by omega)
      rcases ih (s + 1) with hall | ⟨n, hn, hlt, hbelow, hfree, hend⟩
      · exact .inl fun n h₁ h₂ => hstep n h₁ fun h => hall n h (by omega)
      · exact .inr ⟨n, by omega, by omega, fun k h₁ h₂ => hstep k h₁ fun h => hbelow k h h₂, hfree, hl.trans hend⟩
    · exact .inr ⟨s, Nat.le_refl s, by omega, fun k h₁ h₂ => by omega, ht, hl⟩

theorem candidate_inj {n m : Nat} {t u : List Char} (hn : n ≠ 0) (hm : m ≠ 0) (ht : candidate name n = some t)
    (hu : candidate name m = some u) (h : t.filter isMark = u.filter isMark) : n = m := by
  refine generate_inj (fun e he => ?_) hn hm ht hu h
  rw [extensionOf] at he
  rw [baseOf]
  obtain ⟨hs, -⟩ | ⟨b, x, hs, -, hb, hx⟩ := splitName_cases (isDosdev name) (replaceInvalidChars name).1
  · rw [hs] at he
    cases he
  · rw [hs] at he ⊢
    obtain rfl := Option.some.inj he
    exact ⟨hb, hx⟩

/-- There are more suffixes than names that could take them. -/
theorem not_all_taken (hkey : ∀ x y, key x = key y → x.filter isMark = y.filter isMark) {s : Nat} (hs : s ≤ 1) :
    ¬ ∀ n, s ≤ n → n < s + ((parent.getD []).length + 2) → Taken key parent name n := by
  intro hall
  cases hp : parent with
  | none =>
    obtain ⟨_, _, h, -⟩ := hall 1 hs (by omega)
    cases hp.symm.trans h
  | some entries =>
    rw [hp, Option.getD_some] at hall
    have hcand : ∀ n ∈ List.range' 1 (entries.length + 1), ∃ t, candidate name n = some t ∧ key t ∈ entries.map key := by
      intro n hn
      rw [List.mem_range'_1] at hn
      obtain ⟨e, t, he, ht, -, hk⟩ := hall n (by omega) (by omega)
      obtain rfl := Option.some.inj he
      exact ⟨t, ht, hk⟩
    have hnd : ((List.range' 1 (entries.length + 1)).map fun n => (candidate name n).map key).Nodup := by
      refine List.Nodup.map_on (fun n hn m hm h => ?_) List.nodup_range'
      obtain ⟨t, ht, -⟩ := hcand n hn
      obtain ⟨u, hu, -⟩ := hcand m hm
      rw [List.mem_range'_1] at hn hm
      rw [ht, hu, Option.map_some, Option.map_some, Option.some.injEq] at h
      exact candidate_inj name (by omega) (by omega) ht hu (hkey t u h)
    have hsub : (List.range' 1 (entries.length + 1)).map (fun n => (candidate name n).map key) ⊆
        (entries.map key).map some := by
      intro k hk
      obtain ⟨n, hn, rfl⟩ := List.mem_map.mp hk
      obtain ⟨t, ht, hmem⟩ := hcand n hn
      rw [ht]
      exact List.mem_map.mpr ⟨key t, hmem, rfl⟩
    have hlen := (List.subperm_of_subset hnd hsub).length_le
    simp only [List.length_map, List.length_range'] at hlen
    omega

theorem join_of_name : join (baseOf name) (extensionOf name) = (replaceInvalidChars name).1 :=
  join_split _ _

theorem candidate_valid {n : Nat} {t : List Char} (h : candidate name n = some t) : ∀ c ∈ t, isInvalid c = false := by
  have hv := replaced_valid name
  rw [← join_of_name] at hv
  refine generate_valid (fun c hc => hv c ?_) (fun e he c hc => hv c ?_) h
  · cases extensionOf name with
    | none => exact hc
    | some e => exact List.mem_append_left _ hc
  · rw [he]
    exact List.mem_append_right _ (List.mem_cons_of_mem _ hc)

theorem firstSuffix_le : firstSuffix name ≤ 1 := by
  rw [firstSuffix]
  split_ifs <;> omega

/-- What the function is for: a short name without invalid characters that the directory does not have. Only
a name that is not to be changed and would have to be is skipped. -/
def Good (handleInvalidChar : Bool) : Result → Prop
  | .named t => t.length ≤ ltfsFilenameMax ∧ (∀ c ∈ t, isInvalid c = false) ∧ key t ∉ (parent.getD []).map key
  | .skipped => handleInvalidChar = false ∧ (replaceInvalidChars name).2 = true
  | _ => False

/-- Below a suffix whose dot makes the name too long there is one that the directory leaves free. -/
def Fits (handleInvalidChar : Bool) : Prop :=
  (replaceInvalidChars name).2 = true ∧ handleInvalidChar = false ∨
    ∀ n, firstSuffix name ≤ n → Overlong (baseOf name) (extensionOf name) n →
      ∃ k, firstSuffix name ≤ k ∧ k < n ∧ ¬ Taken key parent name k

variable {name} {parent}

theorem outcome_named {n : Nat} {t : List Char} (hfree : ¬ Taken key parent name n)
    (ht : candidate name n = some t) (hl : t.length ≤ ltfsFilenameMax) (h : Bool) :
    Good key parent name h (.named t) := by
  refine ⟨hl, candidate_valid name ht, fun hmem => hfree ?_⟩
  cases hp : parent with
  | none =>
    rw [hp] at hmem
    cases hmem
  | some entries =>
    rw [hp] at hmem
    exact ⟨entries, t, rfl, ht, hl, hmem⟩

theorem outcome_good {n : Nat} {h : Bool} (hlen : name.length ≤ ltfsFilenameMax)
    (hcand : candidate name n ≠ none) (hfree : ¬ Taken key parent name n) :
    Good key parent name h (outcome parent name n) ↔ ¬ Overlong (baseOf name) (extensionOf name) n := by
  obtain ⟨t, ht⟩ := Option.ne_none_iff_exists'.mp hcand
  have hjoin : (join (baseOf name) (extensionOf name)).length ≤ ltfsFilenameMax := by
    rw [join_of_name, length_replaced]
    exact hlen
  rw [← generate_length hjoin ht, outcome, ht]
  by_cases hl : t.length ≤ ltfsFilenameMax
  · have hc : ¬ (parent ≠ none ∧ ltfsFilenameMax < t.length) := fun hc => absurd hl (Nat.not_le.mpr hc.2)
    simp only [if_neg hc]
    exact iff_of_true (outcome_named key hfree ht hl h) hl
  · refine iff_of_false ?_ hl
    simp only
    split_ifs
    · exact id
    · exact fun hg => hl hg.1

theorem not_overlong_of_taken {n : Nat} (hlen : name.length ≤ ltfsFilenameMax) (h : Taken key parent name n) :
    ¬ Overlong (baseOf name) (extensionOf name) n := by
  obtain ⟨_, t, -, ht, hl, -⟩ := h
  have hjoin : (join (baseOf name) (extensionOf name)).length ≤ ltfsFilenameMax := by
    rw [join_of_name, length_replaced]
    exact hlen
  exact (generate_length hjoin ht).mp hl

/-- One call gives the name it is for, exactly if it meets no suffix that makes the name too long. -/
theorem update_good [DecidableEq K] {h : Bool} (hkey : ∀ x y, key x = key y → x.filter isMark = y.filter isMark) (hne : name ≠ [])
    (hlen : name.length ≤ ltfsFilenameMax) (hfew : (parent.getD []).length + 3 < 2 ^ 31) :
    Good key parent name h (updatePlatformSafeName key parent name h) ↔ Fits key parent name h := by
  rw [updatePlatformSafeName, Fits]
  by_cases hskip : (replaceInvalidChars name).2 = true ∧ h = false
  · rw [if_pos hskip]
    exact iff_of_true ⟨hskip.2, hskip.1⟩ (.inl hskip)
  · rw [if_neg hskip, or_iff_right hskip]
    have hfirst := firstSuffix_le name
    have hjoin : join (baseOf name) (extensionOf name) ≠ [] := by
      rw [join_of_name, ← List.length_pos_iff, length_replaced, List.length_pos_iff]
      exact hne
    rcases loop_cases key parent name ((parent.getD []).length + 2) (firstSuffix name) with hall | hend
    · exact absurd hall (not_all_taken key parent name hkey hfirst)
    · obtain ⟨n, hn, hlt, hbelow, hfree, hloop⟩ := hend
      have hcand : candidate name n ≠ none := generate_ne_none (by omega) base_short hjoin
      refine ((iff_of_eq (congrArg _ hloop)).trans (outcome_good key hlen hcand hfree)).trans ?_
      constructor
      · intro hno m hm ho
        refine ⟨n, hn, ?_, hfree⟩
        by_contra hmn
        rcases Nat.lt_or_eq_of_le (Nat.le_of_not_lt hmn) with hlt | rfl
        · exact not_overlong_of_taken key hlen (hbelow m hm hlt) ho
        · exact hno ho
      · intro hall ho
        obtain ⟨k, hk, hkn, hkfree⟩ := hall n hn ho
        exact hkfree (hbelow k hk hkn)

/-- In a directory a name is given only if it is short, valid and new. -/
theorem update_named [DecidableEq K] {entries : List (List Char)} {h : Bool} {t : List Char}
    (hkey : ∀ x y, key x = key y → x.filter isMark = y.filter isMark)
    (ht : updatePlatformSafeName key (some entries) name h = .named t) :
    Good key (some entries) name h (.named t) := by
  rw [updatePlatformSafeName] at ht
  split_ifs at ht
  rcases loop_cases key (some entries) name (entries.length + 2) (firstSuffix name) with hall | hend
  · exact absurd hall (not_all_taken key (some entries) name hkey (firstSuffix_le name))
  · obtain ⟨n, -, -, -, hfree, hloop⟩ := hend
    have ho := hloop.symm.trans ht
    rw [outcome] at ho
    split at ho
    · cases ho
    · next u hu =>
      split_ifs at ho with hc
      obtain rfl := Result.named.inj ho
      exact outcome_named key hfree hu (Nat.le_of_not_lt fun hl => hc ⟨Option.some_ne_none _, hl⟩) h

end Update

/-- The names in a directory are short, valid and told apart by their keys. -/
structure Sane (entries : List (List Char)) : Prop where
  short : ∀ t ∈ entries, t.length ≤ ltfsFilenameMax
  valid : ∀ t ∈ entries, ∀ c ∈ t, isInvalid c = false
  distinct : (entries.map key).Nodup

variable [DecidableEq K]

/-- The directory after one name, with the flag of the call. -/
def next (entries : List (List Char)) (x : List Char × Bool) : List (List Char) :=
  addEntry entries (updatePlatformSafeName key (some entries) x.1 x.2)

variable {key} {entries : List (List Char)}

theorem next_sane (hkey : ∀ x y, key x = key y → x.filter isMark = y.filter isMark) (hs : Sane key entries)
    (x : List Char × Bool) : Sane key (next key entries x) := by
  rw [next]
  cases hr : updatePlatformSafeName key (some entries) x.1 x.2 with
  | named t =>
    obtain ⟨hshort, hvalid, hnew⟩ := update_named key hkey hr
    refine ⟨?_, ?_, ?_⟩
    · intro u hu
      rcases List.mem_append.mp hu with hu | hu
      · exact hs.short u hu
      · rwa [List.mem_singleton.mp hu]
    · intro u hu
      rcases List.mem_append.mp hu with hu | hu
      · exact hs.valid u hu
      · rwa [List.mem_singleton.mp hu]
    · rw [addEntry, List.map_append, List.nodup_append]
      refine ⟨hs.distinct, List.nodup_singleton _, fun k hk l hl => ?_⟩
      rw [List.map_singleton, List.mem_singleton] at hl
      rintro rfl
      exact hnew (hl ▸ hk)
  | skipped => exact hs
  | unnamed => exact hs
  | running => exact hs

theorem length_next_le (x : List Char × Bool) : (next key entries x).length ≤ entries.length + 1 := by
  rw [next]
  cases updatePlatformSafeName key (some entries) x.1 x.2 with
  | named t => exact Nat.le_of_eq List.length_append
  | skipped => exact Nat.le_succ _
  | unnamed => exact Nat.le_succ _
  | running => exact Nat.le_succ _

/-- Names are given one after the other. The directory always stays sane, and every name gets what it is to
get exactly if none of them meets a suffix that makes it too long. -/
theorem names_iff {xs : List (List Char × Bool)}
    (hkey : ∀ x y, key x = key y → x.filter isMark = y.filter isMark) (hs : Sane key entries)
    (hnames : ∀ x ∈ xs, x.1 ≠ [] ∧ x.1.length ≤ ltfsFilenameMax) (hfew : entries.length + xs.length + 3 < 2 ^ 31) :
    (Meets (next key) (fun e x => Good key (some e) x.1 x.2 (updatePlatformSafeName key (some e) x.1 x.2)) entries xs ∧
      Sane key (run (next key) entries xs)) ↔
    Meets (next key) (fun e x => Fits key (some e) x.1 x.2) entries xs := by
  induction xs generalizing entries with
  | nil => exact iff_of_true ⟨trivial, hs⟩ trivial
  | cons x xs ih =>
    obtain ⟨⟨hne, hlen⟩, hrest⟩ := List.forall_mem_cons.mp hnames
    rw [List.length_cons] at hfew
    have hnext := @length_next_le _ key _ entries x
    rw [Meets, Meets, run_cons, and_assoc, ih (next_sane hkey hs x) hrest (by omega)]
    refine and_congr_left' (update_good key hkey hne hlen ?_)
    rw [Option.getD_some]
    omega

/-- A name of 254 characters, which is its own key. -/
def longName : List Char :=
  List.replicate 249 'a' ++ ['.', 't', 'e', 'x', 't']

theorem longName_length : longName ≠ [] ∧ longName.length ≤ ltfsFilenameMax := by
  decide +kernel

theorem names_iff_long :
    (Meets (next id) (fun e x => Good id (some e) x.1 x.2 (updatePlatformSafeName id (some e) x.1 x.2)) []
        [(longName, true), (longName, true)] ∧
      Sane id (run (next id) [] [(longName, true), (longName, true)])) ↔
    Meets (next id) (fun e x => Fits id (some e) x.1 x.2) [] [(longName, true), (longName, true)] := by
  have hnames : ∀ x ∈ [(longName, true), (longName, true)], x.1 ≠ [] ∧ x.1.length ≤ ltfsFilenameMax := by
    intro x hx
    rcases List.mem_cons.mp hx with rfl | hx
    · exact longName_length
    · rw [List.mem_singleton.mp hx]
      exact longName_length
  exact names_iff (fun _ _ h => congrArg _ h) ⟨nofun, nofun, List.nodup_nil⟩ hnames (by simp)

/-- The second file of this name gets none: with `~1` in front of the dot it has 256 characters. -/
theorem second_unnamed :
    updatePlatformSafeName id (some [longName]) longName true = .unnamed ∧
    ¬ Meets (next id) (fun e x => Good id (some e) x.1 x.2 (updatePlatformSafeName id (some e) x.1 x.2)) []
        [(longName, true), (longName, true)] := by
  have h₁ : updatePlatformSafeName id (some []) longName true = .named longName := by decide +kernel
  have h₂ : updatePlatformSafeName id (some [longName]) longName true = .unnamed := by decide +kernel
  refine ⟨h₂, ?_⟩
  have hnext : next id [] (longName, true) = [longName] := congrArg (addEntry []) h₁
  rw [Meets, Meets, hnext, h₂]
  rintro ⟨-, hsecond, -⟩
  exact hsecond

end Ltfs.SafeNameSpec
