import Ltfs.Lib.Run
import Ltfs.Xattr

namespace Ltfs.XattrSpec

open Format Lib.Keyed Lib.Run Xattr
open Criteria (bytes hasPrefix)

inductive Op where
  | set (name value : Bytes) (flags : Flags) (mem : Mem)
  | remove (name : Bytes)

def Op.name : Op → Bytes
  | .set name _ _ _ => name
  | .remove name => name

/-- A call on an attribute outside the reserved namespace -/
structure Call where
  op : Op
  free : isReserved op.name = false

def exec (o : Outside) (c : Call) (l : List XattrInfo) : Except Errno Unit × List XattrInfo :=
  match c.op with
  | .set name value flags mem => xattrSet o name value flags mem l
  | .remove name => xattrRemove o name l

/-- The attributes of a dentry, with what the last successful call for each name has left -/
structure State where
  list : List XattrInfo
  last : Bytes → Option Bytes

def valueAt (l : List XattrInfo) (name : Bytes) : Option Bytes := (xattrSeek name l).map valueOf

/-- A dentry as it is found -/
def initial (l : List XattrInfo) : State := ⟨l, valueAt l⟩

/-- What a successful call is for -/
def apply (op : Op) (m : Bytes → Option Bytes) : Bytes → Option Bytes :=
  match op with
  | .set name value _ _ => fun n => if n = name then some value else m n
  | .remove name => fun n => if n = name then none else m n

def step (o : Outside) (s : State) (c : Call) : State :=
  match exec o c s.list with
  | (.ok _, l) => ⟨l, apply c.op s.last⟩
  | (.error _, l) => ⟨l, s.last⟩

/-- The entries that a listing shows -/
def visible (u : Unformat) (l : List XattrInfo) : List XattrInfo := l.filter fun x => u.convert x.key ≠ livelinkEaName

/-- The names that a listing shows, one behind the other -/
def names (u : Unformat) (l : List XattrInfo) : Bytes :=
  (visible u l).flatMap fun x => u.convert (bytes "user.") ++ u.convert x.key ++ [0]

/-- What the query and the listing answer, and what they leave unsaid -/
structure Right (o : Outside) (s : State) : Prop where
  distinct : (s.list.map XattrInfo.key).Nodup
  get : ∀ name size, isReserved name = false → xattrGet o name size s.list =
    match s.last name with
    | none => .error .noXattr
    | some v =>
      if size = 0 then .ok (v.length, []) else if v.length ≤ size then .ok (v.length, v) else .error .smallBuffer
  list : ∀ u size, (∀ k, u.mem k = true) → xattrList u size s.list =
    if size = 0 then .ok ((names u s.list).length, [])
    else if (names u s.list).length ≤ size then .ok ((names u s.list).length, names u s.list)
    else .error .smallBuffer
  present : ∀ u name, (u.convert name = livelinkEaName → name = livelinkEaName) → isReserved name = false →
    ((s.last name).isSome ↔ name ∈ (visible u s.list).map XattrInfo.key)

/-- A call that fails leaves the attributes as they were. -/
def Atomic (o : Outside) (s : State) (c : Call) : Prop :=
  (∃ e, (exec o c s.list).1 = .error e) → (exec o c s.list).2 = s.list

/-- The state is right before and after every call, and every call that fails leaves it as it was. -/
def AllRight (o : Outside) : State → List Call → Prop
  | s, [] => Right o s
  | s, c :: cs => Right o s ∧ Atomic o s c ∧ AllRight o (step o s c) cs

/-- The new value can be allocated if it takes the place of another one. -/
def Secured (s : State) (c : Call) : Prop :=
  match c.op with
  | .set name value flags mem =>
    value ≠ [] → value.length ≤ maxXattrSize → flags.create = false → name ∈ s.list.map XattrInfo.key →
      mem.value = true
  | .remove _ => True

variable {o : Outside} {l : List XattrInfo} {s : State} {c : Call} {name value : Bytes} {mem : Mem} {flags : Flags}
  {v : Option Bytes} {u : Unformat}

section Names

theorem reserved_of_vendor (rest : Bytes) : isReserved (bytes "ltfs.vendor" ++ rest) = true := rfl

theorem reserved_names : ∀ s ∈ dentryNames ++ fileNames ++ rootNames, isReserved (bytes s) = true := by
  decide +kernel

/-- The names of virtual attributes are reserved. -/
theorem not_virtual (h : isReserved name = false) : xattrIsVirtual o name = false := by
  have hone : ∀ names : List String, (∀ s ∈ names, s ∈ dentryNames ++ fileNames ++ rootNames) →
      isOneOf names name = false := by
    intro names hsub
    rw [isOneOf, List.any_eq_false]
    intro s hs heq
    rw [of_decide_eq_true heq, reserved_names s (hsub s hs)] at h
    cases h
  have hpolicy : name ≠ bytes "ltfs.policyMaxFileSize" := by
    rintro rfl
    exact absurd h (by decide +kernel)
  have hpre : (bytes "ltfs.vendor").isPrefixOf name = false := by
    rw [Bool.eq_false_iff, ne_eq, List.isPrefixOf_iff_prefix]
    rintro ⟨rest, rfl⟩
    rw [reserved_of_vendor] at h
    cases h
  rw [xattrIsVirtual, hone dentryNames fun s hs => List.mem_append_left _ (List.mem_append_left _ hs),
    hone fileNames fun s hs => List.mem_append_left _ (List.mem_append_right _ hs),
    hone rootNames fun s hs => List.mem_append_right _ hs, hpre, decide_eq_false hpolicy]
  simp

theorem not_livelink (h : isReserved name = false) : name ≠ livelinkEaName := by
  rintro rfl
  exact absurd h (by decide +kernel)

end Names

section Lists

@[simp] theorem valueAt_eq (l : List XattrInfo) (name : Bytes) :
    valueAt l name = (seek XattrInfo.key name l).map valueOf := rfl

theorem xattrDoSet_found (x : XattrInfo) : xattrDoSet name value mem (some x) l =
    if value = [] then (.ok (), putValue name none l)
    else if mem.value then (.ok (), putValue name (some value) l)
    else (.error .noMemory, erase XattrInfo.key name l) := by
  have hput : putValue name (some value) (putValue name none l) = putValue name (some value) l := by
    rw [putValue, putValue, modify_modify]
    · rfl
    · exact fun _ => rfl
  have herase : erase XattrInfo.key name (putValue name none l) = erase XattrInfo.key name l := by
    rw [putValue, erase_modify]
    exact fun _ => rfl
  rw [xattrDoSet, prepare]
  dsimp only
  rw [hput, herase]

theorem xattrDoSet_new : xattrDoSet name value mem none l =
    if mem.xattr && mem.key && (value = [] || mem.value) then
      (.ok (), ⟨name, if value = [] then none else some value⟩ :: l)
    else (.error .noMemory, l) := by
  rw [xattrDoSet, prepare]
  cases hmem : mem.xattr && mem.key with
  | false => rfl
  | true =>
    rw [if_pos rfl]
    by_cases hv : value = []
    · simp [hv]
    · cases mem.value with
      | false => simp [hv, erase]
      | true => simp [hv, putValue, Lib.Keyed.modify]

theorem getReal_eq (name : Bytes) (size : Nat) (l : List XattrInfo) : getReal name size l =
    match valueAt l name with
    | none => .error .noXattr
    | some v =>
      if size = 0 then .ok (v.length, []) else if v.length ≤ size then .ok (v.length, v) else .error .smallBuffer := by
  rw [getReal, valueAt]
  cases xattrSeek name l with
  | none => rfl
  | some x =>
    dsimp only [Option.map_some]
    split_ifs <;> first | rfl | omega

/-- The loop of a listing, when memory is there for every name -/
theorem listLoop_eq (hmem : ∀ k, u.mem k = true) (before : Bytes) (size : Nat) (l : List XattrInfo) (k n : Nat)
    (list : Bytes) :
    ∃ list', listLoop u before size l k n list =
        .ok (n + ((visible u l).flatMap fun x => before ++ u.convert x.key ++ [0]).length, list') ∧
      (size = 0 → list' = list) ∧
      (size ≠ 0 → n + ((visible u l).flatMap fun x => before ++ u.convert x.key ++ [0]).length ≤ size →
        list' = list ++ (visible u l).flatMap fun x => before ++ u.convert x.key ++ [0]) := by
  induction l generalizing k n list with
  | nil => exact ⟨list, rfl, fun _ => rfl, fun _ _ => by simp [visible]⟩
  | cons x l ih =>
    rw [listLoop, hmem]
    by_cases hx : u.convert x.key = livelinkEaName
    · have hvis : visible u (x :: l) = visible u l := by simp [visible, hx]
      rw [hvis]
      simpa [hx] using ih (k + 1) n list
    · have hvis : visible u (x :: l) = x :: visible u l := by simp [visible, hx]
      rw [hvis, List.flatMap_cons, List.length_append]
      have hlen : (before ++ u.convert x.key ++ [0]).length = before.length + (u.convert x.key).length + 1 := by
        simp [Nat.add_assoc]
      dsimp only
      rw [if_neg (by decide : ¬(!true) = true), if_neg hx, hlen]
      generalize hn' : n + (before.length + (u.convert x.key).length + 1) = n'
      generalize hlist : (if size ≠ 0 ∧ n' ≤ size then list ++ (before ++ u.convert x.key ++ [0]) else list) = list₁
      obtain ⟨list', hloop, hzero, hfull⟩ := ih (k + 1) n' list₁
      refine ⟨list', ?_, fun hs => ?_, fun hs hle => ?_⟩
      · rw [hloop, ← hn', Nat.add_assoc]
      · rw [hzero hs, ← hlist, if_neg fun h => h.1 hs]
      · rw [hfull hs (by omega), ← hlist, if_pos ⟨hs, by omega⟩, List.append_assoc]

theorem xattrList_eq (hmem : ∀ k, u.mem k = true) (size : Nat) (l : List XattrInfo) : xattrList u size l =
    if size = 0 then .ok ((names u l).length, [])
    else if (names u l).length ≤ size then .ok ((names u l).length, names u l)
    else .error .smallBuffer := by
  obtain ⟨list', hloop, hzero, hfull⟩ := listLoop_eq hmem (u.convert (bytes "user.")) size l 1 0 []
  rw [Nat.zero_add] at hloop hfull
  change listLoop u _ size l 1 0 [] = .ok ((names u l).length, list') at hloop
  change size ≠ 0 → (names u l).length ≤ size → list' = [] ++ names u l at hfull
  have hphys : xattrListPhysicals u size l = .ok ((names u l).length, list') := by
    rw [xattrListPhysicals, hmem, ← hloop]
    rfl
  rw [xattrList, hphys]
  dsimp only
  by_cases hs : size = 0
  · rw [if_neg fun h => h.1 hs, if_pos hs, hzero hs]
  · rw [if_neg hs]
    by_cases hle : (names u l).length ≤ size
    · rw [if_neg fun h => Nat.not_lt.2 hle h.2, if_pos hle, hfull hs hle, List.nil_append]
    · rw [if_pos ⟨hs, by omega⟩, if_neg hle]

theorem isSome_valueAt : (valueAt l name).isSome ↔ name ∈ l.map XattrInfo.key := by
  rw [valueAt_eq, Option.isSome_map, Option.isSome_iff_ne_none, ne_eq, seek_eq_none, not_not]

/-- A name that the listing does not hide is in it just if it is in the list. -/
theorem mem_visible (hname : u.convert name = livelinkEaName → name = livelinkEaName)
    (hfree : isReserved name = false) : name ∈ (visible u l).map XattrInfo.key ↔ name ∈ l.map XattrInfo.key := by
  rw [List.mem_map, List.mem_map]
  constructor
  · rintro ⟨x, hx, rfl⟩
    exact ⟨x, (List.mem_filter.1 hx).1, rfl⟩
  · rintro ⟨x, hx, rfl⟩
    exact ⟨x, List.mem_filter.2 ⟨hx, decide_eq_true fun h => not_livelink hfree (hname h)⟩, rfl⟩

end Lists

/-- The keys are distinct, and the list holds what the calls have left. -/
structure Invariant (s : State) : Prop where
  distinct : Distinct XattrInfo.key s.list
  last : ∀ name, isReserved name = false → s.last name = valueAt s.list name

theorem Invariant.right (h : Invariant s) : Right o s where
  distinct := h.distinct
  get name size hfree := by
    rw [xattrGet, not_virtual hfree, h.last name hfree]
    exact getReal_eq name size s.list
  list u size hmem := xattrList_eq hmem size s.list
  present u name hname hfree := by
    rw [mem_visible hname hfree, h.last name hfree]
    exact isSome_valueAt

theorem Invariant.initial (h : (l.map XattrInfo.key).Nodup) : Invariant (initial l) := ⟨h, fun _ _ => rfl⟩

section Calls

/-- The list has become `l'`, in which `name` has the value `v` and the other names have theirs. -/
structure Becomes (name : Bytes) (v : Option Bytes) (l l' : List XattrInfo) : Prop where
  distinct : Distinct XattrInfo.key l'
  value : ∀ n, valueAt l' n = if n = name then v else valueAt l n

theorem becomes_put (h : Distinct XattrInfo.key l) (hname : name ∈ l.map XattrInfo.key) (v : Option Bytes) :
    Becomes name (some (v.getD [])) l (putValue name v l) := by
  have hkey : ∀ x : XattrInfo, XattrInfo.key { x with value := v } = x.key := fun _ => rfl
  refine ⟨h.modify hkey name, fun n => ?_⟩
  rw [valueAt_eq, putValue, seek_modify hkey, valueAt_eq]
  split_ifs
  · cases hx : seek XattrInfo.key name l with
    | none => exact absurd hname (seek_eq_none.1 hx)
    | some x => rfl
  · rfl

theorem becomes_new (h : Distinct XattrInfo.key l) (hname : name ∉ l.map XattrInfo.key) (v : Option Bytes) :
    Becomes name (some (v.getD [])) l (⟨name, v⟩ :: l) := by
  refine ⟨distinct_cons.2 ⟨hname, h⟩, fun n => ?_⟩
  rw [valueAt_eq, seek_cons, valueAt_eq]
  by_cases hn : n = name
  · rw [if_pos hn, if_pos hn.symm]
    rfl
  · rw [if_neg hn, if_neg (Ne.symm hn)]

theorem becomes_erased (h : Distinct XattrInfo.key l) : Becomes name none l (erase XattrInfo.key name l) := by
  refine ⟨h.erase name, fun n => ?_⟩
  rw [valueAt_eq, seek_erase h, valueAt_eq]
  split_ifs <;> rfl

/-- The call takes the value of an attribute away for a new one that it has no memory for. -/
def Loses (name value : Bytes) (flags : Flags) (mem : Mem) (l : List XattrInfo) : Prop :=
  value ≠ [] ∧ value.length ≤ maxXattrSize ∧ flags.create = false ∧ name ∈ l.map XattrInfo.key ∧ mem.value = false

/-- A call of `xattr_set`: refused, carried out, or the attribute is lost. -/
theorem xattrSet_cases (hfree : isReserved name = false) (h : Distinct XattrInfo.key l) :
    ¬Loses name value flags mem l ∧ (∃ e, xattrSet o name value flags mem l = (.error e, l)) ∨
    ¬Loses name value flags mem l ∧
      (∃ l', xattrSet o name value flags mem l = (.ok (), l') ∧ Becomes name (some value) l l') ∨
    Loses name value flags mem l ∧
      xattrSet o name value flags mem l = (.error .noMemory, erase XattrInfo.key name l) := by
  rw [xattrSet, not_virtual hfree, hfree]
  by_cases hlen : maxXattrSize < value.length
  · rw [if_pos hlen]
    exact .inl ⟨fun hl => Nat.not_lt.2 hl.2.1 hlen, _, rfl⟩
  rw [if_neg hlen, if_neg (by decide), if_neg (by decide)]
  cases hx : xattrSeek name l with
  | none =>
    have hname : name ∉ l.map XattrInfo.key := seek_eq_none.1 hx
    have hkept : ¬Loses name value flags mem l := fun hl => hname hl.2.2.2.1
    dsimp only
    rw [Option.isSome_none, Option.isNone_none, Bool.and_false, if_neg (by decide), xattrDoSet_new]
    split_ifs with hr hm hv
    · exact .inl ⟨hkept, _, rfl⟩
    · rw [hv]
      exact .inr (.inl ⟨hv ▸ hkept, _, rfl, becomes_new h hname none⟩)
    · exact .inr (.inl ⟨hkept, _, rfl, becomes_new h hname (some value)⟩)
    · exact .inl ⟨hkept, _, rfl⟩
  | some x =>
    have hname : name ∈ l.map XattrInfo.key := by
      rw [← isSome_valueAt, valueAt, hx]
      rfl
    dsimp only
    rw [Option.isSome_some, Option.isNone_some, Bool.and_true, Bool.and_false, if_neg (by decide : ¬false = true),
      xattrDoSet_found]
    split_ifs with hc hv hm
    · exact .inl ⟨fun hl => Bool.false_ne_true (hl.2.2.1.symm.trans hc), _, rfl⟩
    · rw [hv]
      exact .inr (.inl ⟨fun hl => hl.1 rfl, _, rfl, becomes_put h hname none⟩)
    · refine .inr (.inl ⟨fun hl => ?_, _, rfl, becomes_put h hname (some value)⟩)
      exact Bool.false_ne_true (hl.2.2.2.2.symm.trans hm)
    · exact .inr (.inr ⟨⟨hv, Nat.not_lt.1 hlen, by simpa using hc, hname, by simpa using hm⟩, rfl⟩)

theorem xattrRemove_cases (hfree : isReserved name = false) (h : Distinct XattrInfo.key l) :
    (∃ e, xattrRemove o name l = (.error e, l)) ∨
      ∃ l', xattrRemove o name l = (.ok (), l') ∧ Becomes name none l l' := by
  rw [xattrRemove, not_virtual hfree, if_neg (by decide), xattrDoRemove, hfree]
  cases xattrSeek name l with
  | none => exact .inl ⟨_, rfl⟩
  | some x => exact .inr ⟨_, rfl, becomes_erased h⟩

theorem secured_iff (hc : c.op = .set name value flags mem) :
    Secured s c ↔ ¬Loses name value flags mem s.list := by
  rw [Secured, hc, Loses]
  dsimp only
  constructor
  · rintro h ⟨hv, hlen, hcreate, hname, hmem⟩
    rw [h hv hlen hcreate hname] at hmem
    cases hmem
  · intro h hv hlen hcreate hname
    by_contra hmem
    exact h ⟨hv, hlen, hcreate, hname, by simpa using hmem⟩

/-- A call that fails without harm -/
theorem kept_of_error {e : Errno} (h : Invariant s) (hx : exec o c s.list = (.error e, s.list)) :
    Atomic o s c ∧ Invariant (step o s c) := by
  refine ⟨fun _ => by rw [hx], ?_⟩
  rw [step, hx]
  exact h

theorem kept_of_ok {l' : List XattrInfo} (hx : exec o c s.list = (.ok (), l'))
    (hd : Distinct XattrInfo.key l') (hl : ∀ n, isReserved n = false → XattrSpec.apply c.op s.last n = valueAt l' n) :
    Atomic o s c ∧ Invariant (step o s c) := by
  refine ⟨fun ⟨e, he⟩ => ?_, ?_⟩
  · rw [hx] at he
    cases he
  · rw [step, hx]
    exact ⟨hd, hl⟩

/-- One call -/
theorem step_invariant (h : Invariant s) (hc : Secured s c) : Atomic o s c ∧ Invariant (step o s c) := by
  obtain ⟨op, hfree⟩ := c
  cases op with
  | set name value flags mem =>
    have hkept := (secured_iff rfl).1 hc
    obtain ⟨-, e, hx⟩ | ⟨-, l', hx, hb⟩ | ⟨hl, -⟩ :=
      @xattrSet_cases o s.list name value mem flags hfree h.distinct
    · exact kept_of_error h hx
    · refine kept_of_ok hx hb.distinct fun n hn => ?_
      rw [hb.value, apply]
      dsimp only
      rw [h.last n hn]
    · exact absurd hl hkept
  | remove name =>
    obtain ⟨e, hx⟩ | ⟨l', hx, hb⟩ := @xattrRemove_cases o s.list name hfree h.distinct
    · exact kept_of_error h hx
    · refine kept_of_ok hx hb.distinct fun n hn => ?_
      rw [hb.value, apply]
      dsimp only
      rw [h.last n hn]

theorem secured_of_atomic (h : Invariant s) (ha : Atomic o s c) : Secured s c := by
  obtain ⟨op, hfree⟩ := c
  cases op with
  | set name value flags mem =>
    refine (secured_iff rfl).2 fun hl => ?_
    obtain ⟨hk, -⟩ | ⟨hk, -⟩ | ⟨-, hx⟩ := @xattrSet_cases o s.list name value mem flags hfree h.distinct
    · exact hk hl
    · exact hk hl
    · have hsame : (exec o ⟨.set name value flags mem, hfree⟩ s.list).2 = s.list :=
        ha ⟨.noMemory, congrArg Prod.fst hx⟩
      have herased : erase XattrInfo.key name s.list = s.list := (congrArg Prod.snd hx).symm.trans hsame
      exact erase_ne (fun hnone => seek_eq_none.1 hnone hl.2.2.2.1) herased
  | remove name => trivial

end Calls

/-- The attributes of a dentry are right throughout a run just if no call loses one for want of memory. -/
theorem allRight_iff_invariant (h : Invariant s) (cs : List Call) : AllRight o s cs ↔ Meets (step o) Secured s cs := by
  induction cs generalizing s with
  | nil => exact ⟨fun _ => trivial, fun _ => h.right⟩
  | cons c cs ih =>
    constructor
    · rintro ⟨-, ha, hrest⟩
      have hc := secured_of_atomic h ha
      exact ⟨hc, (ih (step_invariant h hc).2).1 hrest⟩
    · rintro ⟨hc, hrest⟩
      obtain ⟨ha, hi⟩ := @step_invariant o s c h hc
      exact ⟨h.right, ha, (ih hi).2 hrest⟩

theorem allRight_iff (o : Outside) (l : List XattrInfo) (h : (l.map XattrInfo.key).Nodup) (cs : List Call) :
    AllRight o (initial l) cs ↔ Meets (step o) Secured (initial l) cs :=
  allRight_iff_invariant (.initial h) cs

section Sample

def nothing : Outside where
  isdir := false
  extentlistEmpty := true
  isRoot := false
  haveCriteria := false
  getVirtual := fun _ _ => .error .noXattr
  setVirtual := fun _ _ => .error .noXattr
  removeVirtual := fun _ => .error .noXattr

def key : Bytes := [107, 101, 121]

def setKey (value : Bytes) (create mem : Bool) : Call :=
  ⟨.set key value ⟨create, false⟩ ⟨true, true, mem⟩, (by decide : isReserved key = false)⟩

/-- Set, refused by `XATTR_CREATE`, set again, removed -/
def calls : List Call := [setKey [1, 2] true true, setKey [3] true true, setKey [] false false, ⟨.remove key, by decide⟩]

theorem allRight_calls : AllRight nothing (initial []) calls := by
  refine (allRight_iff nothing [] List.nodup_nil calls).2 ⟨?_, ?_, ?_, trivial, trivial⟩
  · exact fun _ _ _ _ => rfl
  · exact fun _ _ h _ => absurd h (by decide)
  · exact fun h => absurd rfl h

/-- The value is freed, and then there is no memory for the new one. -/
theorem value_lost : ¬AllRight nothing (initial [⟨key, some [1, 2]⟩]) [setKey [3] false false] := by
  rintro ⟨-, h, -⟩
  exact absurd (h ⟨.noMemory, by decide⟩) (by decide)

end Sample

end Ltfs.XattrSpec
