import Mathlib.Data.List.Basic
import Mathlib.Logic.Function.Basic
import Mathlib.Tactic.Common

/-! The output buffer of a gzip file open for reading: a byte pushed by `gzungetc` lies before its
data, wherever they are. -/
namespace ZlibNg

/-- `out`, with `x.next` as an offset and `x.have` bytes there. -/
structure OutBuffer where
  out : Nat → UInt8
  size : Nat
  next : Nat
  count : Nat
  size_pos : 0 < size
  fits : next + count ≤ 2 * size

/-- The loop `while (src > out) *--dest = *--src`. -/
def slideUp : Nat → Nat → (Nat → UInt8) → Nat → UInt8
  | 0, _, out => out
  | src + 1, dest, out => slideUp src (dest - 1) (Function.update out (dest - 1) (out src))

namespace OutBuffer

/-- The bytes to be delivered. -/
def bytes (b : OutBuffer) : List UInt8 := (List.range' b.next b.count).map b.out

/-- How `gzungetc` stores a byte. -/
def push (b : OutBuffer) (c : UInt8) : Option OutBuffer :=
  have hsize := b.size_pos
  have hfits := b.fits
  if b.count = 0 then
    some { b with
      out := Function.update b.out (2 * b.size - 1) c
      next := 2 * b.size - 1
      count := 1
      fits := by omega }
  else if hfull : b.count = 2 * b.size then none
  else if b.next = 0 then
    some { b with
      out := Function.update (slideUp b.count (2 * b.size) b.out) (2 * b.size - b.count - 1) c
      next := 2 * b.size - b.count - 1
      count := b.count + 1
      fits := by omega }
  else
    some { b with
      out := Function.update b.out (b.next - 1) c
      next := b.next - 1
      count := b.count + 1
      fits := by omega }

end OutBuffer

theorem slideUp_above {src dest : Nat} {out : Nat → UInt8} {p : Nat} (h : dest ≤ p)
    (hle : src ≤ dest) : slideUp src dest out p = out p := by
  induction src generalizing dest out with
  | zero => rfl
  | succ src ih =>
    rw [slideUp, ih (by omega) (by omega), Function.update_of_ne (by omega)]

/-- The loop moves the first bytes to the end, although the two ranges may overlap. -/
theorem slideUp_moves {src dest : Nat} {out : Nat → UInt8} (h : src ≤ dest) {i : Nat}
    (hi : i < src) : slideUp src dest out (dest - src + i) = out i := by
  induction src generalizing dest out with
  | zero => omega
  | succ src ih =>
    rw [slideUp]
    by_cases hlast : i = src
    · have hplace : dest - (src + 1) + i = dest - 1 := by omega
      rw [hplace, slideUp_above (Nat.le_refl _) (by omega), Function.update_self, hlast]
    · have hplace : dest - (src + 1) + i = dest - 1 - src + i := by omega
      rw [hplace, ih (by omega) (by omega), Function.update_of_ne (by omega)]

theorem map_range'_update {out : Nat → UInt8} {c : UInt8} {p n : Nat} :
    (List.range' p (n + 1)).map (Function.update out p c) =
      c :: (List.range' (p + 1) n).map out := by
  rw [List.range'_succ, List.map_cons, Function.update_self]
  refine congrArg (c :: ·) (List.map_congr_left fun q hq => ?_)
  rw [List.mem_range'_1] at hq
  exact Function.update_of_ne (by omega) _ _

namespace OutBuffer
variable {b : OutBuffer} {c : UInt8}

/-- The byte comes before the others, and only a full buffer refuses it. -/
theorem push_bytes :
    (b.push c).map bytes = if b.bytes.length = 2 * b.size then none else some (c :: b.bytes) := by
  have hsize := b.size_pos
  have hfits := b.fits
  have hlen : b.bytes.length = b.count := by simp [bytes]
  rw [hlen]
  unfold push
  dsimp only
  by_cases hzero : b.count = 0
  · rw [if_pos hzero, if_neg (by omega), Option.map_some]
    have hnil : b.bytes = [] := List.eq_nil_of_length_eq_zero (hlen.trans hzero)
    refine congrArg some ?_
    rw [hnil]
    exact map_range'_update
  · rw [if_neg hzero]
    by_cases hfull : b.count = 2 * b.size
    · rw [dif_pos hfull, if_pos hfull]
      rfl
    · rw [dif_neg hfull, if_neg hfull]
      by_cases hnext : b.next = 0
      · rw [if_pos hnext, Option.map_some]
        refine congrArg some (map_range'_update.trans (congrArg (c :: ·) ?_))
        unfold bytes
        rw [hnext, List.range'_eq_map_range, List.range'_eq_map_range, List.map_map, List.map_map]
        refine List.map_congr_left fun i hi => ?_
        have hplace : 2 * b.size - b.count - 1 + 1 + i = 2 * b.size - b.count + i := by omega
        simp only [Function.comp, hplace, Nat.zero_add]
        exact slideUp_moves (by omega) (List.mem_range.mp hi)
      · rw [if_neg hnext, Option.map_some]
        have hstep : b.next - 1 + 1 = b.next := by omega
        refine congrArg some (map_range'_update.trans ?_)
        rw [hstep]
        rfl

end OutBuffer
end ZlibNg
