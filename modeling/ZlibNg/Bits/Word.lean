import Mathlib.Tactic.Ring

/-! Unsigned 32-bit operations, as the machine computes them and with a check that they fit. -/
namespace ZlibNg

/-- The value of a 32-bit unsigned operation with the exact result `v`, as the machine computes
it. -/
def wrap32 (v : Int) : Option Nat := some (v % 2 ^ 32).toNat

/-- The same operation where the exact result must fit. -/
def fit32 (v : Int) : Option Nat := if 0 ≤ v ∧ v < 2 ^ 32 then some v.toNat else none

/-- Arithmetic that is exact on values in the range. -/
def ExactWord (word : Int → Option Nat) : Prop := ∀ v : Nat, v < 2 ^ 32 → word v = some v

theorem wrap32_exact : ExactWord wrap32 := by
  intro v hv
  have h : ((v : Int) % 2 ^ 32).toNat = v := by omega
  rw [wrap32, h]

theorem fit32_exact : ExactWord fit32 := by
  intro v hv
  rw [fit32, if_pos (by omega), Int.toNat_natCast]

/-- An operation whose exact result is the natural number `n`. -/
theorem ExactWord.eq {word : Int → Option Nat} (hword : ExactWord word) {v : Int} {n : Nat}
    (h : v = n) (hn : n < 2 ^ 32) : word v = some n := by
  rw [h, hword n hn]

end ZlibNg
