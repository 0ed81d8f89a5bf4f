import Mathlib.Data.List.Range
import Mathlib.Logic.Function.Basic

/-! The cells of an array between two positions, as a list. A queue in an array is such a list: it
is taken from at one end and added to at the other. -/
namespace ZlibNg

variable {α : Type*}

/-- The cells from `i` on, before `j`. -/
def segment (a : Nat → α) (i j : Nat) : List α := (List.range' i (j - i)).map a

section Segment
variable {a b : Nat → α} {i j : Nat}

@[simp] theorem length_segment : (segment a i j).length = j - i := by
  rw [segment, List.length_map, List.length_range']

theorem segment_of_le (h : j ≤ i) : segment a i j = [] := by
  rw [segment, Nat.sub_eq_zero_of_le h, List.range'_zero, List.map_nil]

theorem segment_cons (h : i < j) : segment a i j = a i :: segment a (i + 1) j := by
  rw [segment, show j - i = (j - (i + 1)) + 1 by omega, List.range'_succ, List.map_cons, segment]

theorem segment_congr (h : ∀ k, i ≤ k → k < j → a k = b k) : segment a i j = segment b i j := by
  refine List.map_congr_left fun k hk => ?_
  rw [List.mem_range'_1] at hk
  exact h k hk.1 (by omega)

/-- A cell at the end is added. -/
theorem segment_push (h : i ≤ j) (x : α) :
    segment (Function.update a j x) i (j + 1) = segment a i j ++ [x] := by
  have hold : segment (Function.update a j x) i j = segment a i j :=
    segment_congr fun k _ hk => Function.update_of_ne hk.ne _ _
  rw [← hold, segment, segment, show j + 1 - i = (j - i) + 1 by omega, List.range'_1_concat,
    List.map_append, List.map_singleton, show i + (j - i) = j by omega, Function.update_self]

theorem segment_zero (a : Nat → α) (n : Nat) : segment a 0 n = (List.range n).map a := by
  rw [segment, Nat.sub_zero, List.range_eq_range']

/-- What the cells hold after a list has been stored in them. -/
theorem segment_getD (l : List α) (old : Nat → α) :
    segment (fun i => l.getD i (old i)) 0 l.length = l := by
  rw [segment_zero]
  refine List.ext_getElem (by rw [List.length_map, List.length_range]) fun k hk hk' => ?_
  rw [List.getElem_map, List.getElem_range, List.getD_eq_getElem?_getD, List.getElem?_eq_getElem hk',
      Option.getD_some]

end Segment

end ZlibNg
