import Mathlib.Data.Nat.Bitwise
import Mathlib.Tactic.Ring

/-! Several numbers in one machine word, and two meanings of the arithmetic on them: as the
machine computes it, and with a check that no lane carries into the next one. -/
namespace ZlibNg

/-- The `k`-th lane of `w` bits, from the lowest. -/
def lane (w k x : Nat) : Nat := x / 2 ^ (w * k) % 2 ^ w

/-- Four lanes of 16 bits. -/
def lanes16 (a b c d : Nat) : Nat := a + 2 ^ 16 * b + 2 ^ 32 * c + 2 ^ 48 * d

/-- Two lanes of 32 bits. -/
def lanes32 (a b : Nat) : Nat := a + 2 ^ 32 * b

/-- What the product of two words has in its `k`-th lane. -/
def column (w x y k : Nat) : Nat :=
  ((List.range (k + 1)).map fun i => lane w i x * lane w (k - i) y).sum

/-- Arithmetic on 32-bit numbers and on 64-bit words of lanes; `none` stands for a number that
does not fit. -/
structure WordArith where
  /-- The result of a 32-bit operation with the exact value `v`. -/
  word : Nat → Option Nat
  /-- The sum of two words of `w`-bit lanes. -/
  addLanes : Nat → Nat → Nat → Option Nat
  /-- The top lane of the product of two words. -/
  topLane : Nat → Nat → Nat → Option Nat

/-- What the machine computes. -/
def WordArith.wrapping : WordArith where
  word v := some (v % 2 ^ 32)
  addLanes _ x y := some ((x + y) % 2 ^ 64)
  topLane w x y := some ((x * y % 2 ^ 64) >>> (64 - w))

/-- The same arithmetic where no number and no lane may overflow. -/
def WordArith.checked : WordArith where
  word v := if v < 2 ^ 32 then some v else none
  addLanes w x y := if ∀ k < 64 / w, lane w k x + lane w k y < 2 ^ w then some (x + y) else none
  topLane w x y :=
    if ∀ k < 64 / w, column w x y k < 2 ^ w then some (column w x y (64 / w - 1)) else none

/-- Arithmetic that is exact where everything fits. -/
structure WordArith.Exact (A : WordArith) : Prop where
  word : ∀ v < 2 ^ 32, A.word v = some v
  add16 : ∀ a b c d a' b' c' d', a + a' < 2 ^ 16 → b + b' < 2 ^ 16 → c + c' < 2 ^ 16 →
    d + d' < 2 ^ 16 → A.addLanes 16 (lanes16 a b c d) (lanes16 a' b' c' d') =
      some (lanes16 (a + a') (b + b') (c + c') (d + d'))
  add32 : ∀ a b a' b', a + a' < 2 ^ 32 → b + b' < 2 ^ 32 →
    A.addLanes 32 (lanes32 a b) (lanes32 a' b') = some (lanes32 (a + a') (b + b'))
  top16 : ∀ a b c d p q r t, a < 2 ^ 16 → b < 2 ^ 16 → c < 2 ^ 16 → d < 2 ^ 16 →
    p < 2 ^ 16 → q < 2 ^ 16 → r < 2 ^ 16 → t < 2 ^ 16 →
    a * p < 2 ^ 16 → a * q + b * p < 2 ^ 16 → a * r + b * q + c * p < 2 ^ 16 →
    a * t + b * r + c * q + d * p < 2 ^ 16 →
    A.topLane 16 (lanes16 a b c d) (lanes16 p q r t) = some (a * t + b * r + c * q + d * p)
  top32 : ∀ a b p q, a < 2 ^ 32 → b < 2 ^ 32 → p < 2 ^ 32 → q < 2 ^ 32 → a * p < 2 ^ 32 →
    a * q + b * p < 2 ^ 32 →
    A.topLane 32 (lanes32 a b) (lanes32 p q) = some (a * q + b * p)

/-- The weighted sum of four lanes, none above `L`. -/
theorem WordArith.Exact.dot16 {A : WordArith} (hA : A.Exact) {L a b c d p q r t : Nat} (ha : a ≤ L)
    (hb : b ≤ L) (hc : c ≤ L) (hd : d ≤ L) (hL : L < 2 ^ 16) (hw : p + q + r + t < 2 ^ 16)
    (h : L * (p + q + r + t) < 2 ^ 16) :
    A.topLane 16 (lanes16 a b c d) (lanes16 p q r t) = some (a * t + b * r + c * q + d * p) := by
  simp only [Nat.mul_add] at h
  have hle : ∀ x ≤ L, ∀ y, x * y ≤ L * y := fun x hx y => Nat.mul_le_mul_right y hx
  have h1 := hle a ha p
  have h2 := hle a ha q
  have h3 := hle a ha r
  have h4 := hle a ha t
  have h5 := hle b hb p
  have h6 := hle b hb q
  have h7 := hle b hb r
  have h8 := hle c hc p
  have h9 := hle c hc q
  have h10 := hle d hd p
  exact hA.top16 a b c d p q r t (by omega) (by omega) (by omega) (by omega) (by omega) (by omega)
    (by omega) (by omega) (by omega) (by omega) (by omega) (by omega)

section Lanes
variable {a b c d : Nat}

theorem lane_lanes16 (ha : a < 2 ^ 16) (hb : b < 2 ^ 16) (hc : c < 2 ^ 16) (hd : d < 2 ^ 16) :
    lane 16 0 (lanes16 a b c d) = a ∧ lane 16 1 (lanes16 a b c d) = b ∧
      lane 16 2 (lanes16 a b c d) = c ∧ lane 16 3 (lanes16 a b c d) = d := by
  simp only [lane, lanes16]
  omega

theorem lane_lanes32 (ha : a < 2 ^ 32) (hb : b < 2 ^ 32) :
    lane 32 0 (lanes32 a b) = a ∧ lane 32 1 (lanes32 a b) = b := by
  simp only [lane, lanes32]
  omega

theorem forall_lt_four {P : Nat → Prop} : (∀ k < 4, P k) ↔ P 0 ∧ P 1 ∧ P 2 ∧ P 3 := by
  constructor
  · exact fun h => ⟨h 0 (by decide), h 1 (by decide), h 2 (by decide), h 3 (by decide)⟩
  · rintro ⟨h0, h1, h2, h3⟩ k hk
    obtain rfl | rfl | rfl | rfl : k = 0 ∨ k = 1 ∨ k = 2 ∨ k = 3 := by omega
    exacts [h0, h1, h2, h3]

theorem forall_lt_two {P : Nat → Prop} : (∀ k < 2, P k) ↔ P 0 ∧ P 1 := by
  constructor
  · exact fun h => ⟨h 0 (by decide), h 1 (by decide)⟩
  · rintro ⟨h0, h1⟩ k hk
    obtain rfl | rfl : k = 0 ∨ k = 1 := by omega
    exacts [h0, h1]

theorem testBit_add_two_pow_mul {a b w : Nat} (ha : a < 2 ^ w) (i : Nat) :
    (a + 2 ^ w * b).testBit i = if i < w then a.testBit i else b.testBit (i - w) := by
  rw [Nat.add_comm, Nat.testBit_two_pow_mul_add _ ha]

/-- Masks act on each lane. -/
theorem and_two_pow_mul {a b m n w : Nat} (ha : a < 2 ^ w) (hm : m < 2 ^ w) :
    (a + 2 ^ w * b) &&& (m + 2 ^ w * n) = (a &&& m) + 2 ^ w * (b &&& n) := by
  apply Nat.eq_of_testBit_eq
  intro i
  rw [Nat.testBit_and, testBit_add_two_pow_mul ha, testBit_add_two_pow_mul hm,
    testBit_add_two_pow_mul (Nat.and_lt_two_pow _ hm)]
  split <;> rw [Nat.testBit_and]

end Lanes

namespace WordArith

theorem wrapping_exact : wrapping.Exact where
  word v hv := by simp only [wrapping, Nat.mod_eq_of_lt hv]
  add16 a b c d a' b' c' d' h1 h2 h3 h4 := by
    simp only [wrapping, lanes16, Option.some.injEq]
    omega
  add32 a b a' b' h1 h2 := by
    simp only [wrapping, lanes32, Option.some.injEq]
    omega
  top16 a b c d p q r t _ _ _ _ _ _ _ _ h1 h2 h3 h4 := by
    have hprod : lanes16 a b c d * lanes16 p q r t = a * p + 2 ^ 16 * (a * q + b * p) +
        2 ^ 32 * (a * r + b * q + c * p) + 2 ^ 48 * (a * t + b * r + c * q + d * p) +
        2 ^ 64 * (b * t + c * r + d * q + 2 ^ 16 * (c * t + d * r) + 2 ^ 32 * (d * t)) := by
      simp only [lanes16]
      ring
    simp only [wrapping, hprod, Nat.shiftRight_eq_div_pow, Option.some.injEq]
    generalize a * p = e0 at *
    generalize a * q + b * p = e1 at *
    generalize a * r + b * q + c * p = e2 at *
    generalize a * t + b * r + c * q + d * p = e3 at *
    omega
  top32 a b p q _ _ _ _ h1 h2 := by
    have hprod : lanes32 a b * lanes32 p q =
        a * p + 2 ^ 32 * (a * q + b * p) + 2 ^ 64 * (b * q) := by
      simp only [lanes32]
      ring
    simp only [wrapping, hprod, Nat.shiftRight_eq_div_pow, Option.some.injEq]
    generalize a * p = e0 at *
    generalize a * q + b * p = e1 at *
    omega

theorem checked_exact : checked.Exact where
  word v hv := by simp only [checked, if_pos hv]
  add16 a b c d a' b' c' d' h1 h2 h3 h4 := by
    obtain ⟨e0, e1, e2, e3⟩ := lane_lanes16 (a := a) (b := b) (c := c) (d := d) (by omega)
      (by omega) (by omega) (by omega)
    obtain ⟨f0, f1, f2, f3⟩ := lane_lanes16 (a := a') (b := b') (c := c') (d := d') (by omega)
      (by omega) (by omega) (by omega)
    have hfit : ∀ k < 4, lane 16 k (lanes16 a b c d) + lane 16 k (lanes16 a' b' c' d') < 2 ^ 16 := by
      rw [forall_lt_four, e0, e1, e2, e3, f0, f1, f2, f3]
      exact ⟨h1, h2, h3, h4⟩
    simp only [checked]
    rw [if_pos hfit]
    simp only [lanes16, Option.some.injEq]
    omega
  add32 a b a' b' h1 h2 := by
    obtain ⟨e0, e1⟩ := lane_lanes32 (a := a) (b := b) (by omega) (by omega)
    obtain ⟨f0, f1⟩ := lane_lanes32 (a := a') (b := b') (by omega) (by omega)
    have hfit : ∀ k < 2, lane 32 k (lanes32 a b) + lane 32 k (lanes32 a' b') < 2 ^ 32 := by
      rw [forall_lt_two, e0, e1, f0, f1]
      exact ⟨h1, h2⟩
    simp only [checked]
    rw [if_pos hfit]
    simp only [lanes32, Option.some.injEq]
    omega
  top16 a b c d p q r t ha hb hc hd hp hq hr ht h1 h2 h3 h4 := by
    obtain ⟨e0, e1, e2, e3⟩ := lane_lanes16 ha hb hc hd
    obtain ⟨f0, f1, f2, f3⟩ := lane_lanes16 hp hq hr ht
    have hfit : ∀ k < 4, column 16 (lanes16 a b c d) (lanes16 p q r t) k < 2 ^ 16 := by
      rw [forall_lt_four]
      simp only [column, List.range, List.range.loop, List.map_cons, List.map_nil, List.sum_cons,
        List.sum_nil, Nat.sub_zero, Nat.sub_self, Nat.reduceSub, e0, e1, e2, e3,
        f0, f1, f2, f3]
      omega
    simp only [checked]
    rw [if_pos hfit]
    simp only [column, List.range, List.range.loop, List.map_cons, List.map_nil, List.sum_cons,
      List.sum_nil, Nat.reduceDiv, Nat.sub_zero, Nat.sub_self, Nat.reduceSub, e0, e1, e2,
      e3, f0, f1, f2, f3, Option.some.injEq]
    omega
  top32 a b p q ha hb hp hq h1 h2 := by
    obtain ⟨e0, e1⟩ := lane_lanes32 ha hb
    obtain ⟨f0, f1⟩ := lane_lanes32 hp hq
    have hfit : ∀ k < 2, column 32 (lanes32 a b) (lanes32 p q) k < 2 ^ 32 := by
      rw [forall_lt_two]
      simp only [column, List.range, List.range.loop, List.map_cons, List.map_nil, List.sum_cons,
        List.sum_nil, Nat.sub_zero, Nat.sub_self, e0, e1, f0, f1]
      omega
    simp only [checked]
    rw [if_pos hfit]
    simp only [column, List.range, List.range.loop, List.map_cons, List.map_nil, List.sum_cons,
      List.sum_nil, Nat.reduceDiv, Nat.sub_zero, Nat.sub_self, Nat.reduceSub, e0,
      e1, f0, f1, Option.some.injEq]
    omega

end WordArith
end ZlibNg
