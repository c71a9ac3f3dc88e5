import Mathlib.Data.List.Basic

namespace Ltfs.Lib.Log

variable {α : Type}

/-- Recording `ws` at block `b` of a sequential medium: whatever stood at `b` or after is gone. -/
def overwrite (rs : List α) (b : Nat) (ws : List α) : List α :=
  rs.take b ++ ws

/-- A sequence of writes from block `b` on. Nothing is lost before the first one. -/
def record (rs : List α) (b : Nat) : List α → List α
  | [] => rs
  | w :: ws => overwrite rs b (w :: ws)

/-- The records `ws` stand at block `b`. -/
def Holds (rs : List α) (b : Nat) (ws : List α) : Prop :=
  ∃ pre post, rs = pre ++ (ws ++ post) ∧ pre.length = b

variable {rs ws vs : List α} {b c : Nat}

theorem overwrite_nil_of_length (rs : List α) : overwrite rs rs.length [] = rs := by
  simp [overwrite]

theorem overwrite_length (h : b ≤ rs.length) : (overwrite rs b ws).length = b + ws.length := by
  simp [overwrite, Nat.min_eq_left h]

theorem overwrite_end (rs ws : List α) : overwrite rs rs.length ws = rs ++ ws := by
  simp [overwrite]

/-- Writes one after the other add up to one write. -/
theorem overwrite_overwrite (h : b ≤ rs.length) (vs : List α) :
    overwrite (overwrite rs b ws) (b + ws.length) vs = overwrite rs b (ws ++ vs) := by
  have hl : (rs.take b ++ ws).length = b + ws.length := by
    simp [Nat.min_eq_left h]
  unfold overwrite
  rw [← hl, List.take_length, List.append_assoc]

@[simp] theorem record_nil (rs : List α) (b : Nat) : record rs b [] = rs := rfl

theorem record_concat (rs : List α) (b : Nat) (ws : List α) (w : α) :
    record rs b (ws ++ [w]) = overwrite rs b (ws ++ [w]) := by
  cases ws <;> rfl

theorem record_ne_nil (h : ws ≠ []) : record rs b ws = overwrite rs b ws := by
  cases ws with
  | nil => exact absurd rfl h
  | cons w ws => rfl

/-- Writing on behind what has just been written. -/
theorem record_record (h : b ≤ rs.length) (vs : List α) :
    record (record rs b ws) (b + ws.length) vs = record rs b (ws ++ vs) := by
  cases vs with
  | nil => simp
  | cons v vs =>
    cases ws with
    | nil => rfl
    | cons w ws => exact overwrite_overwrite h (v :: vs)

theorem record_end (rs ws : List α) : record rs rs.length ws = rs ++ ws := by
  cases ws with
  | nil => simp
  | cons w ws => exact overwrite_end rs (w :: ws)

theorem length_record (h : b ≤ rs.length) : b + ws.length ≤ (record rs b ws).length := by
  cases ws with
  | nil => simpa using h
  | cons w ws => exact Nat.le_of_eq (overwrite_length h).symm

theorem overwrite_append_left (pre : List α) : overwrite (pre ++ ws) pre.length vs = pre ++ vs := by
  simp [overwrite]

theorem getElem?_overwrite_lt (rs ws : List α) (h : c < b) : (overwrite rs b ws)[c]? = rs[c]? ∨ rs.length ≤ c := by
  by_cases hc : c < rs.length
  · left
    unfold overwrite
    rw [List.getElem?_append_left (by simp; omega), List.getElem?_take_of_lt h]
  · right
    omega

/-- What stands below the write position survives the write. -/
theorem getElem?_overwrite {r : α} (h : rs[c]? = some r) (hb : c < b) :
    (overwrite rs b ws)[c]? = some r := by
  obtain h' | h' := getElem?_overwrite_lt rs ws hb
  · rw [h', h]
  · rw [List.getElem?_eq_none h'] at h
    cases h

theorem getElem?_record {r : α} (h : rs[c]? = some r) (hb : c < b) : (record rs b ws)[c]? = some r := by
  cases ws with
  | nil => exact h
  | cons w ws => exact getElem?_overwrite h hb

theorem getElem?_overwrite_ge (h : b ≤ rs.length) (k : Nat) :
    (overwrite rs b ws)[b + k]? = ws[k]? := by
  unfold overwrite
  rw [List.getElem?_append_right (by rw [List.length_take]; omega)]
  congr 1
  simp
  omega

theorem Holds.length_le (h : Holds rs b ws) : b + ws.length ≤ rs.length := by
  obtain ⟨pre, post, rfl, rfl⟩ := h
  simp

theorem holds_append_mid (pre ws post : List α) : Holds (pre ++ (ws ++ post)) pre.length ws :=
  ⟨pre, post, rfl, rfl⟩

theorem Holds.overwrite (h : Holds rs c ws) (hc : c + ws.length ≤ b) (vs : List α) :
    Holds (overwrite rs b vs) c ws := by
  obtain ⟨pre, post, rfl, rfl⟩ := h
  refine ⟨pre, post.take (b - pre.length - ws.length) ++ vs, ?_, rfl⟩
  have hp : pre.take b = pre := List.take_of_length_le (by omega)
  have hw : ws.take (b - pre.length) = ws := List.take_of_length_le (by omega)
  simp only [Log.overwrite, List.take_append, hp, hw, List.append_assoc]

theorem Holds.record (h : Holds rs c ws) (hc : c + ws.length ≤ b) (vs : List α) :
    Holds (record rs b vs) c ws := by
  cases vs with
  | nil => exact h
  | cons v vs => exact h.overwrite hc (v :: vs)

theorem holds_overwrite_self (h : b ≤ rs.length) : Holds (overwrite rs b ws) b ws :=
  ⟨rs.take b, [], by simp [overwrite], by simp [h]⟩

theorem Holds.append (h : Holds rs b ws) (vs : List α) : Holds (rs ++ vs) b ws := by
  obtain ⟨pre, post, rfl, rfl⟩ := h
  exact ⟨pre, post ++ vs, by simp, rfl⟩

theorem Holds.getElem? (h : Holds rs b ws) {k : Nat} (hk : k < ws.length) : rs[b + k]? = ws[k]? := by
  obtain ⟨pre, post, rfl, rfl⟩ := h
  rw [List.getElem?_append_right (by omega), Nat.add_sub_cancel_left, List.getElem?_append_left hk]

end Ltfs.Lib.Log
