import Mathlib.Data.BitVec

/-! Polynomials over two elements modulo a polynomial of degree `w`, the coefficient of `x^i` in
bit `w - 1 - i`. -/
namespace ZlibNg.Reflected

variable {w : Nat}

/-- The polynomial `1`. -/
def one (w : Nat) : BitVec w := BitVec.twoPow w (w - 1)

/-- Multiplication by `x`, modulo `x^w` plus `poly`. -/
def mulX (poly c : BitVec w) : BitVec w := if c.getLsbD 0 then (c >>> 1) ^^^ poly else c >>> 1

/-- Multiplication by `x^n`. -/
def mulPow (poly : BitVec w) (n : Nat) (c : BitVec w) : BitVec w := (mulX poly)^[n] c

/-- The terms of the product for the coefficients of `x^i` in `a` with `i < n`. -/
def partialMul (poly a b : BitVec w) : Nat → BitVec w
  | 0 => 0#w
  | n + 1 => partialMul poly a b n ^^^ if a.getLsbD (w - 1 - n) then mulPow poly n b else 0#w

/-- Multiplication modulo `x^w` plus `poly`. -/
def mul (poly a b : BitVec w) : BitVec w := partialMul poly a b w

section Linear
variable (poly a b c : BitVec w)

theorem mulX_xor : mulX poly (a ^^^ b) = mulX poly a ^^^ mulX poly b := by
  have hcancel : ∀ p q : BitVec w, p ^^^ q = p ^^^ poly ^^^ (q ^^^ poly) := by
    intro p q
    have h : p ^^^ poly ^^^ (q ^^^ poly) = p ^^^ q ^^^ (poly ^^^ poly) := by ac_rfl
    rw [h, BitVec.xor_self, BitVec.xor_zero]
  simp only [mulX, BitVec.getLsbD_xor, BitVec.ushiftRight_xor_distrib]
  cases a.getLsbD 0 <;> cases b.getLsbD 0 <;>
    simp only [Bool.xor_false, Bool.xor_true, Bool.not_false, Bool.not_true, Bool.false_eq_true,
      if_true, if_false]
  · ac_rfl
  · ac_rfl
  · exact hcancel _ _

@[simp] theorem mulX_zero : mulX poly 0#w = 0#w := by simp [mulX]

@[simp] theorem mulPow_zero : mulPow poly 0 c = c := rfl

theorem mulPow_succ (n : Nat) : mulPow poly (n + 1) c = mulX poly (mulPow poly n c) :=
  Function.iterate_succ_apply' _ _ _

theorem mulPow_add (m n : Nat) : mulPow poly (m + n) c = mulPow poly m (mulPow poly n c) :=
  Function.iterate_add_apply _ _ _ _

theorem mulPow_xor (n : Nat) : mulPow poly n (a ^^^ b) = mulPow poly n a ^^^ mulPow poly n b := by
  induction n with
  | zero => rfl
  | succ n ih => rw [mulPow_succ, mulPow_succ, mulPow_succ, ih, mulX_xor]

theorem mulPow_of_zero (n : Nat) : mulPow poly n 0#w = 0#w := by
  induction n with
  | zero => rfl
  | succ n ih => rw [mulPow_succ, ih, mulX_zero]

theorem mulPow_comm (m n : Nat) :
    mulPow poly m (mulPow poly n c) = mulPow poly n (mulPow poly m c) := by
  rw [← mulPow_add, ← mulPow_add, Nat.add_comm]

theorem partialMul_mulPow (m n : Nat) :
    partialMul poly a (mulPow poly m b) n = mulPow poly m (partialMul poly a b n) := by
  induction n with
  | zero => exact (mulPow_of_zero poly m).symm
  | succ n ih =>
    rw [partialMul, partialMul, mulPow_xor, ih]
    split
    · rw [mulPow_comm]
    · rw [mulPow_of_zero]

/-- A product by a multiple of `x^m`. -/
theorem mul_mulPow (m : Nat) : mul poly a (mulPow poly m b) = mulPow poly m (mul poly a b) :=
  partialMul_mulPow poly a b m w

theorem partialMul_xor (n : Nat) :
    partialMul poly a (b ^^^ c) n = partialMul poly a b n ^^^ partialMul poly a c n := by
  induction n with
  | zero => simp [partialMul]
  | succ n ih =>
    simp only [partialMul, ih, mulPow_xor]
    split
    · ac_rfl
    · simp

theorem mul_xor : mul poly a (b ^^^ c) = mul poly a b ^^^ mul poly a c :=
  partialMul_xor poly a b c w

theorem partialMul_of_zero (n : Nat) : partialMul poly a 0#w n = 0#w := by
  induction n with
  | zero => rfl
  | succ n ih => simp [partialMul, ih, mulPow_of_zero]

/-- What has only high bits is shifted. -/
theorem mulPow_of_low {n : Nat} (h : ∀ i < n, c.getLsbD i = false) : mulPow poly n c = c >>> n := by
  induction n with
  | zero => simp
  | succ n ih =>
    have hbit : (c >>> n).getLsbD 0 = false := by simpa using h n (by omega)
    rw [mulPow_succ, ih (fun i hi => h i (by omega)), mulX, hbit, BitVec.shiftRight_add]
    rfl

/-- Without further coefficients the product is complete. -/
theorem partialMul_of_low {n : Nat} (hn : n ≤ w) (h : ∀ i < w - n, a.getLsbD i = false) :
    partialMul poly a b n = mul poly a b := by
  have hext : ∀ m, n + m ≤ w → partialMul poly a b (n + m) = partialMul poly a b n := by
    intro m
    induction m with
    | zero => exact fun _ => rfl
    | succ m ih =>
      intro hm
      rw [← Nat.add_assoc, partialMul, ih (by omega), h _ (by omega)]
      simp
  have hw := hext (w - n) (by omega)
  rw [Nat.add_sub_cancel' hn] at hw
  exact hw.symm

end Linear

section One
variable (poly a b : BitVec w)

/-- While `x^n` is not reduced it is a single bit. -/
theorem mulPow_one {n : Nat} (hn : n < w) : mulPow poly n (one w) = BitVec.twoPow w (w - 1 - n) := by
  induction n with
  | zero => rfl
  | succ n ih =>
    rw [mulPow_succ, ih (by omega), mulX]
    have hbit : (BitVec.twoPow w (w - 1 - n)).getLsbD 0 = false := by
      rw [BitVec.getLsbD_twoPow]
      simp
      omega
    rw [hbit]
    simp only [Bool.false_eq_true, if_false]
    ext i hi
    simp only [BitVec.getElem_ushiftRight, BitVec.getLsbD_twoPow, BitVec.getElem_twoPow]
    grind

/-- The high `n` bits. -/
theorem partialMul_one {n : Nat} (hn : n ≤ w) (i : Nat) :
    (partialMul poly a (one w) n).getLsbD i = (a.getLsbD i && decide (w - n ≤ i)) := by
  induction n with
  | zero =>
    simp only [partialMul]
    by_cases hi : i < w
    · simp; omega
    · simp [BitVec.getLsbD_of_ge a i (by omega)]
  | succ n ih =>
    rw [partialMul, BitVec.getLsbD_xor, ih (by omega), mulPow_one poly (by omega)]
    by_cases hi : i = w - 1 - n
    · subst hi
      have h1 : ¬ w - n ≤ w - 1 - n := by omega
      have h2 : w - (n + 1) ≤ w - 1 - n := by omega
      have h3 : w - 1 - n < w := by omega
      cases ha : a.getLsbD (w - 1 - n) <;> simp [h1, h2, h3]
    · have hne : (BitVec.twoPow w (w - 1 - n)).getLsbD i = false := by
        rw [BitVec.getLsbD_twoPow]
        simp
        omega
      have hle : decide (w - n ≤ i) = decide (w - (n + 1) ≤ i) := by
        apply decide_eq_decide.mpr
        omega
      rw [hle]
      split <;> simp [hne]

@[simp] theorem mul_one : mul poly a (one w) = a := by
  apply BitVec.eq_of_getLsbD_eq
  intro i hi
  rw [mul, partialMul_one poly a le_rfl]
  simp

theorem mul_partialMul_one (n : Nat) :
    mul poly a (partialMul poly b (one w) n) = partialMul poly b a n := by
  induction n with
  | zero => exact partialMul_of_zero poly a w
  | succ n ih =>
    rw [partialMul, partialMul, mul_xor, ih]
    split
    · rw [mul_mulPow, mul_one]
    · rw [mul, partialMul_of_zero]

theorem mul_comm : mul poly a b = mul poly b a := by
  have h := mul_partialMul_one poly a b w
  rw [← mul, ← mul, mul_one] at h
  exact h

/-- To multiply by the value of `x^n` is to multiply `n` times by `x`. -/
theorem mulPow_one_mul (n : Nat) : mul poly (mulPow poly n (one w)) b = mulPow poly n b := by
  rw [mul_comm, mul_mulPow, mul_one]

/-- Powers of `x` with the same value are the same map. -/
theorem mulPow_congr {m n : Nat} (h : mulPow poly m (one w) = mulPow poly n (one w)) :
    mulPow poly m b = mulPow poly n b := by
  rw [← mulPow_one_mul, h, mulPow_one_mul]

theorem mulPow_mul (m n : Nat) : mulPow poly (m * n) b = (mulPow poly m)^[n] b := by
  unfold mulPow
  rw [Function.iterate_mul]

/-- The square of `x^(2^k)`. -/
theorem mul_self_mulPow (k : Nat) :
    mul poly (mulPow poly (2 ^ k) (one w)) (mulPow poly (2 ^ k) (one w)) =
      mulPow poly (2 ^ (k + 1)) (one w) := by
  rw [mulPow_one_mul, ← mulPow_add, pow_succ, Nat.mul_two]

end One

section Injective
variable {poly : BitVec w}

/-- With the constant term in the polynomial, `x` is a unit. -/
theorem mulX_ne_zero (hp : poly.msb = true) {c : BitVec w} (hc : c ≠ 0#w) : mulX poly c ≠ 0#w := by
  unfold mulX
  split
  · intro h
    have hmsb := congrArg BitVec.msb h
    simp [BitVec.msb_xor, hp] at hmsb
  · next hbit =>
    intro h
    apply hc
    apply BitVec.eq_of_getLsbD_eq
    intro i hi
    cases i with
    | zero => simpa using hbit
    | succ i =>
      have hi' := congrArg (fun v => v.getLsbD i) h
      simpa [Nat.add_comm] using hi'

theorem mulPow_ne_zero (hp : poly.msb = true) {c : BitVec w} (hc : c ≠ 0#w) (n : Nat) :
    mulPow poly n c ≠ 0#w := by
  induction n with
  | zero => exact hc
  | succ n ih =>
    rw [mulPow_succ]
    exact mulX_ne_zero hp ih

end Injective
end ZlibNg.Reflected
