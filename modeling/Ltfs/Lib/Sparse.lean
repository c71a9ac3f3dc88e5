import Ltfs.Lib.Cells
import Mathlib.Algebra.Notation.Defs

namespace Ltfs.Lib.Sparse

open Cells

/-- A sparse array: a size and a cell for every position, blank from the size on. -/
structure SparseFile (α : Type) [Zero α] where
  size : Nat
  cells : Nat → α
  blank : ∀ x, size ≤ x → cells x = 0

namespace SparseFile

variable {α : Type} [Zero α]

theorem ext_cells {f g : SparseFile α} (hs : f.size = g.size) (hc : ∀ x, f.cells x = g.cells x) : f = g := by
  obtain ⟨n, c, h⟩ := f
  obtain ⟨m, d, k⟩ := g
  obtain rfl : n = m := hs
  obtain rfl : c = d := funext hc
  rfl

/-- The last write to a position wins. Writing nothing does not move the size. -/
def write (f : SparseFile α) (off : Nat) (buf : List α) : SparseFile α where
  size := if buf = [] then f.size else max f.size (off + buf.length)
  cells x := (cell off buf x).getD (f.cells x)
  blank x hx := by
    by_cases hb : buf = []
    · rw [if_pos hb] at hx
      rw [hb, cell_nil]
      exact f.blank x hx
    · rw [if_neg hb] at hx
      rw [cell_of_ge (by omega)]
      exact f.blank x (by omega)

def truncate (f : SparseFile α) (n : Nat) : SparseFile α where
  size := n
  cells x := if x < n then f.cells x else 0
  blank _ hx := if_neg (Nat.not_lt.2 hx)

/-- The cells from `off` on, at most `n` of them and none behind the size. -/
def read (f : SparseFile α) (off n : Nat) : List α :=
  (List.range' off (min n (f.size - off))).map f.cells

end SparseFile

end Ltfs.Lib.Sparse
