import Mathlib.Data.List.Basic
import Mathlib.Algebra.Order.Ring.Nat

namespace Ltfs.Format

abbrev Bytes := List UInt8

/-- The index partition and the data partition. The label maps them to their one-letter ids;
the physical numbering is a bijection with these two and is not kept. -/
inductive Part where
  | ip
  | dp
  deriving DecidableEq, Repr

def Part.other : Part → Part
  | .ip => .dp
  | .dp => .ip

/-- A value for each partition: `ip_coh`/`dp_coh`, `append_pos[2]` and the like. -/
structure Sides (α : Type) where
  ip : α
  dp : α
  deriving DecidableEq, Repr

namespace Sides

variable {α : Type}

def get (s : Sides α) : Part → α
  | .ip => s.ip
  | .dp => s.dp

def set (s : Sides α) : Part → α → Sides α
  | .ip, a => { s with ip := a }
  | .dp, a => { s with dp := a }

@[simp] theorem get_ip (s : Sides α) : s.get .ip = s.ip := rfl

@[simp] theorem get_dp (s : Sides α) : s.get .dp = s.dp := rfl

@[simp] theorem set_ip_ip (s : Sides α) (a : α) : (s.set .ip a).ip = a := rfl

@[simp] theorem set_ip_dp (s : Sides α) (a : α) : (s.set .ip a).dp = s.dp := rfl

@[simp] theorem set_dp_ip (s : Sides α) (a : α) : (s.set .dp a).ip = s.ip := rfl

@[simp] theorem set_dp_dp (s : Sides α) (a : α) : (s.set .dp a).dp = a := rfl

@[simp] theorem get_set_self (s : Sides α) (p : Part) (a : α) : (s.set p a).get p = a := by
  cases p <;> rfl

theorem get_set_ne (s : Sides α) {p q : Part} (h : q ≠ p) (a : α) : (s.set p a).get q = s.get q := by
  cases p <;> cases q <;> first | rfl | exact absurd rfl h

@[simp] theorem get_set_other (s : Sides α) (p : Part) (a : α) :
    (s.set p a).get p.other = s.get p.other := by
  cases p <;> rfl

@[simp] theorem get_other_set (s : Sides α) (p : Part) (a : α) :
    (s.set p.other a).get p = s.get p := by
  cases p <;> rfl

@[simp] theorem set_get (s : Sides α) (p : Part) : s.set p (s.get p) = s := by
  cases p <;> rfl

@[simp] theorem set_set (s : Sides α) (p : Part) (a b : α) : (s.set p a).set p b = s.set p b := by
  cases p <;> rfl

theorem ext_get {s t : Sides α} (h : ∀ p, s.get p = t.get p) : s = t := by
  obtain ⟨a, b⟩ := s
  obtain ⟨c, d⟩ := t
  obtain rfl : a = c := h .ip
  obtain rfl : b = d := h .dp
  rfl

end Sides

theorem Part.eq_or_other (p q : Part) : q = p ∨ q = p.other := by
  cases p <;> cases q <;> simp [Part.other]

/-- `struct tape_offset`. The partition id NUL stands for "no position". -/
structure TapeOffset where
  block : Nat
  partition : Char
  deriving DecidableEq, Repr

def TapeOffset.null : TapeOffset := ⟨0, '\x00'⟩

/-- `struct ltfs_timespec` -/
structure Timespec where
  tvSec : Int
  tvNsec : Int
  deriving DecidableEq, Repr

/-- `struct extent_info` -/
structure ExtentInfo where
  start : TapeOffset
  byteoffset : Nat
  bytecount : Nat
  fileoffset : Nat
  deriving DecidableEq, Repr

/-- `struct xattr_info`. A missing value pointer is `none`. -/
structure XattrInfo where
  key : Bytes
  value : Option Bytes
  deriving DecidableEq, Repr

/-- The fields of `struct dentry` shared by files and directories that an index stores. -/
structure Meta where
  name : Bytes
  uid : Nat
  readonly : Bool
  creationTime : Timespec
  changeTime : Timespec
  modifyTime : Timespec
  accessTime : Timespec
  backupTime : Timespec
  xattrlist : List XattrInfo
  preservedTags : List Bytes
  deriving DecidableEq, Repr

/-- What a non-directory holds: an extent list, or the target of a symbolic link. -/
inductive Content where
  | extents (l : List ExtentInfo)
  | symlink (target : Bytes)
  deriving DecidableEq, Repr

inductive Dentry where
  | file (m : Meta) (size : Nat) (c : Content)
  | dir (m : Meta) (children : List Dentry)
  deriving Repr

mutual

def Dentry.decEq : (a b : Dentry) → Decidable (a = b)
  | .file m s c, .file m' s' c' =>
    decidable_of_iff (m = m' ∧ s = s' ∧ c = c') (by simp)
  | .dir m l, .dir m' l' =>
    match (inferInstance : Decidable (m = m')), Dentry.decEqList l l' with
    | .isTrue h, .isTrue h' => .isTrue (by rw [h, h'])
    | .isFalse h, _ => .isFalse (fun e => h (by injection e))
    | _, .isFalse h => .isFalse (fun e => h (by injection e))
  | .file _ _ _, .dir _ _ => .isFalse (fun h => nomatch h)
  | .dir _ _, .file _ _ _ => .isFalse (fun h => nomatch h)

def Dentry.decEqList : (a b : List Dentry) → Decidable (a = b)
  | [], [] => .isTrue rfl
  | d :: ds, e :: es =>
    match Dentry.decEq d e, Dentry.decEqList ds es with
    | .isTrue h, .isTrue h' => .isTrue (by rw [h, h'])
    | .isFalse h, _ => .isFalse (fun e => h (by injection e))
    | _, .isFalse h => .isFalse (fun e => h (by injection e))
  | [], _ :: _ => .isFalse (fun h => nomatch h)
  | _ :: _, [] => .isFalse (fun h => nomatch h)

end

instance : DecidableEq Dentry := Dentry.decEq

/-- `struct index_criteria`, without the comparison cache -/
structure IndexCriteria where
  haveCriteria : Bool
  maxFilesizeCriteria : Nat
  globPatterns : List Bytes
  deriving DecidableEq, Repr

/-- `struct ltfs_index` -/
structure Index where
  creator : Bytes
  volUuid : Bytes
  volumeName : Option Bytes
  generation : UInt32
  modTime : Timespec
  selfptr : TapeOffset
  backptr : TapeOffset
  criteriaAllowUpdate : Bool
  originalCriteria : IndexCriteria
  root : Dentry
  dirty : Bool
  atimeDirty : Bool
  useAtime : Bool
  uidNumber : Nat
  commitMessage : Option Bytes
  version : Nat
  preservedTags : List Bytes
  deriving DecidableEq, Repr

def Content.extentlist : Content → List ExtentInfo
  | .extents l => l
  | .symlink _ => []

mutual

/-- Every extent recorded below a dentry. -/
def Dentry.extents : Dentry → List ExtentInfo
  | .file _ _ c => c.extentlist
  | .dir _ children => Dentry.extentsList children

def Dentry.extentsList : List Dentry → List ExtentInfo
  | [] => []
  | d :: ds => d.extents ++ Dentry.extentsList ds

end

/-- The letters the partition label gives to the two partitions. -/
structure Label where
  partidIp : Char
  partidDp : Char
  blocksize : Nat
  ids_ne : partidIp ≠ partidDp
  ip_ne_nul : partidIp ≠ '\x00'
  dp_ne_nul : partidDp ≠ '\x00'
  blocksize_pos : 0 < blocksize

namespace Label

def id (l : Label) : Part → Char
  | .ip => l.partidIp
  | .dp => l.partidDp

variable (l : Label)

@[simp] theorem id_inj {p q : Part} : l.id p = l.id q ↔ p = q := by
  constructor
  · intro h
    cases p <;> cases q <;> first | rfl | exact absurd h l.ids_ne | exact absurd h.symm l.ids_ne
  · rintro rfl
    rfl

theorem id_ne_nul (p : Part) : l.id p ≠ '\x00' := by
  cases p
  · exact l.ip_ne_nul
  · exact l.dp_ne_nul

theorem a_ne_b : 'a' ≠ 'b' := by decide

theorem a_ne_nul : 'a' ≠ '\x00' := by decide

theorem b_ne_nul : 'b' ≠ '\x00' := by decide

theorem pos_four : 0 < 4 := by decide

theorem pos_ten : 0 < 10 := by decide

theorem pos_sixteen : 0 < 16 := by decide

end Label

end Ltfs.Format
