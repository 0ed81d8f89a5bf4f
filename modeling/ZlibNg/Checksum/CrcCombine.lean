import ZlibNg.Bits.Reflected
import ZlibNg.Checksum.Update

/-! The CRC-32 of two buffers put together, from those of the parts. -/
namespace ZlibNg
open Reflected

/-- `POLY`: p(x) reflected, with x^32 implied. -/
def crcPoly : BitVec 32 := 0xedb88320

/-- `x2n_table`. -/
def x2nTable : List (BitVec 32) :=
  [0x40000000, 0x20000000, 0x08000000, 0x00800000, 0x00008000,
   0xedb88320, 0xb1e6b092, 0xa06a2517, 0xed627dae, 0x88d14467,
   0xd7bbfe6a, 0xec447f11, 0x8e7ea170, 0x6427800e, 0x4d47bae0,
   0x09fe548f, 0x83852d0f, 0x30362f1a, 0x7b5a9cc3, 0x31fec169,
   0x9fec022a, 0x6c8dedc4, 0x15d6874d, 0x5fde7a4e, 0xbad90e37,
   0x2e4e5eef, 0x4eaba214, 0xa8a472c0, 0x429a969e, 0x148d302a,
   0xc40ba6d0, 0xc4e22c3c]

/-- The loop of `multmodp`, for at most `fuel` rounds. -/
def multmodpLoop (a : BitVec 32) : Nat → BitVec 32 → BitVec 32 → BitVec 32 → Option (BitVec 32)
  | 0, _, _, _ => none
  | fuel + 1, m, p, b =>
    let p := if a &&& m ≠ 0 then p ^^^ b else p
    if a &&& m ≠ 0 ∧ a &&& (m - 1) = 0 then some p
    else multmodpLoop a fuel (m >>> 1) p (if b &&& 1 ≠ 0 then (b >>> 1) ^^^ crcPoly else b >>> 1)

/-- `multmodp`: a(x) multiplied by b(x) modulo p(x). -/
def multmodp (fuel : Nat) (a b : BitVec 32) : Option (BitVec 32) :=
  multmodpLoop a fuel (1 <<< 31) 0 b

/-- The loop of `x2nmodp`, for at most as many rounds as the third argument says. -/
def x2nmodpLoop (fuel : Nat) : Nat → Int → Nat → BitVec 32 → Option (BitVec 32)
  | 0, _, _, _ => none
  | rounds + 1, n, k, p =>
    if n = 0 then some p
    else do
      let p ← if n % 2 = 1 then multmodp fuel (x2nTable.getD (k % 32) 0) p else some p
      x2nmodpLoop fuel rounds (n / 2) (k + 1) p

/-- `x2nmodp`: x^(n * 2^k) modulo p(x). -/
def x2nmodp (fuel : Nat) (n : Int) (k : Nat) : Option (BitVec 32) :=
  x2nmodpLoop fuel fuel n k (1 <<< 31)

/-- `crc32_combine_`. -/
def crc32Combine (fuel : Nat) (crc1 crc2 : BitVec 32) (len2 : Int) : Option (BitVec 32) := do
  if len2 < 0 then return 0
  let op ← x2nmodp fuel len2 3
  let p ← multmodp fuel op crc1
  return p ^^^ crc2

/-- `crc32_combine_gen_`. -/
def crc32CombineGen (fuel : Nat) (len2 : Int) : Option (BitVec 32) :=
  if len2 < 0 then some 0 else x2nmodp fuel len2 3

/-- `crc32_combine_op_`. -/
def crc32CombineOp (fuel : Nat) (crc1 crc2 op : BitVec 32) : Option (BitVec 32) := do
  let p ← multmodp fuel op crc1
  return p ^^^ crc2

/-- A computation returns `r`: from some number of rounds on, more of them change nothing. -/
def Returns {α : Type} (f : Nat → Option α) (r : α) : Prop := ∃ n, ∀ fuel ≥ n, f fuel = some r

section Multiply
variable {a b : BitVec 32} {i : Nat}

theorem and_twoPow_ne_zero (hi : i < 32) :
    a &&& BitVec.twoPow 32 i ≠ 0 ↔ a.getLsbD i = true := by
  rw [BitVec.and_twoPow]
  cases hbit : a.getLsbD i
  · simp
  · have hone : (BitVec.twoPow 32 i).getLsbD i = true := by simp [hi]
    simp only [if_true, iff_true]
    intro h
    rw [h] at hone
    simp at hone

theorem and_twoPow_sub_one (hi : i < 32) :
    a &&& (BitVec.twoPow 32 i - 1) = 0 ↔ ∀ j < i, a.getLsbD j = false := by
  have hmask : ∀ i < 32, ∀ j < 32, (BitVec.twoPow 32 i - 1).getLsbD j = decide (j < i) := by
    decide +kernel
  constructor
  · intro h j hj
    have hj' := congrArg (fun v => v.getLsbD j) h
    rw [BitVec.getLsbD_and, hmask i hi j (by omega), decide_eq_true hj, Bool.and_true] at hj'
    exact hj'.trans BitVec.getLsbD_zero
  · intro h
    apply BitVec.eq_of_getLsbD_eq
    intro j hj
    rw [BitVec.getLsbD_and, hmask i hi j hj]
    by_cases hji : j < i
    · simp [h j hji]
    · simp [hji]

theorem mulX_eq : (if b &&& 1 ≠ 0 then (b >>> 1) ^^^ crcPoly else b >>> 1) = mulX crcPoly b := by
  have hbit : b &&& 1 ≠ 0 ↔ b.getLsbD 0 = true :=
    @and_twoPow_ne_zero b 0 (by decide)
  simp only [mulX, hbit]

/-- After `i` rounds the product has the first `i` coefficients of `a`, and a later one is not
zero. -/
theorem multmodpLoop_eq {fuel : Nat} (hi : i < 32) (hfuel : 32 - i ≤ fuel)
    (ha : ∃ j < 32 - i, a.getLsbD j = true) :
    multmodpLoop a fuel (BitVec.twoPow 32 (31 - i)) (partialMul crcPoly a b i)
      (mulPow crcPoly i b) = some (mul crcPoly a b) := by
  induction fuel generalizing i with
  | zero => omega
  | succ fuel ih =>
    have hp : (if a &&& BitVec.twoPow 32 (31 - i) ≠ 0 then
        partialMul crcPoly a b i ^^^ mulPow crcPoly i b else partialMul crcPoly a b i) =
        partialMul crcPoly a b (i + 1) := by
      rw [partialMul]
      by_cases hbit : a.getLsbD (31 - i) = true
      · rw [if_pos ((and_twoPow_ne_zero (by omega)).mpr hbit), if_pos hbit]
      · rw [if_neg (fun h => hbit ((and_twoPow_ne_zero (by omega)).mp h)), if_neg hbit, BitVec.xor_zero]
    simp only [multmodpLoop, hp, mulX_eq]
    split
    · next hstop =>
      have hlow := (and_twoPow_sub_one (by omega)).mp hstop.2
      rw [partialMul_of_low crcPoly a b (by omega) (fun j hj => hlow j (by omega))]
    · next hgo =>
      obtain ⟨j, hj, hbit⟩ := ha
      have hnext : ∃ j < 32 - (i + 1), a.getLsbD j = true := by
        by_contra! hno
        apply hgo
        have hj31 : j = 31 - i := by
          by_contra hne
          exact hno j (by omega) hbit
        subst hj31
        refine ⟨(and_twoPow_ne_zero (by omega)).mpr hbit, (and_twoPow_sub_one (by omega)).mpr ?_⟩
        intro l hl
        simpa using hno l (by omega)
      have hm : BitVec.twoPow 32 (31 - i) >>> 1 = BitVec.twoPow 32 (31 - (i + 1)) := by
        have hshift : ∀ k < 31, BitVec.twoPow 32 (k + 1) >>> 1 = BitVec.twoPow 32 k := by decide
        obtain ⟨l, hl, _⟩ := hnext
        rw [show 31 - i = 31 - (i + 1) + 1 by omega]
        exact hshift _ (by omega)
      rw [hm, ← mulPow_succ]
      exact ih (by obtain ⟨l, hl, _⟩ := hnext; omega) (by omega) hnext

/-- The product, for a first operand that is not zero. -/
theorem multmodp_eq {fuel : Nat} (ha : a ≠ 0) (hfuel : 32 ≤ fuel) :
    multmodp fuel a b = some (mul crcPoly a b) := by
  have hbit : ∃ j < 32, a.getLsbD j = true := by
    by_contra! hno
    apply ha
    apply BitVec.eq_of_getLsbD_eq
    intro j hj
    simpa using hno j hj
  exact multmodpLoop_eq (i := 0) (by decide) hfuel hbit

/-- A first operand of zero meets no condition to stop. -/
theorem multmodp_zero (fuel : Nat) : multmodp fuel 0 b = none := by
  have hloop : ∀ m p b, multmodpLoop 0 fuel m p b = none := by
    induction fuel with
    | zero => exact fun _ _ _ => rfl
    | succ fuel ih =>
      intro m p b
      have hand : 0 &&& m = 0 := BitVec.zero_and
      rw [multmodpLoop, hand]
      simp only [ne_eq, not_true, false_and, if_false]
      exact ih _ _ _
  exact hloop _ _ _

end Multiply

section Powers
variable {fuel : Nat} {p : BitVec 32}

theorem crcPoly_msb : crcPoly.msb = true := by decide

/-- The table holds x^(2^k), and its last square is its first entry. -/
theorem x2nTable_squares : x2nTable.getD 0 0 = mulX crcPoly (one 32) ∧
    (∀ k < 31, mul crcPoly (x2nTable.getD k 0) (x2nTable.getD k 0) = x2nTable.getD (k + 1) 0) ∧
    mul crcPoly (x2nTable.getD 31 0) (x2nTable.getD 31 0) = x2nTable.getD 0 0 := by
  decide +kernel

theorem x2nTable_eq {k : Nat} (hk : k < 32) :
    x2nTable.getD k 0 = mulPow crcPoly (2 ^ k) (one 32) := by
  induction k with
  | zero => exact x2nTable_squares.1
  | succ k ih =>
    rw [← x2nTable_squares.2.1 k (by omega), ih (by omega), mul_self_mulPow]

/-- The exponents wrap around: x^(2^32) is x. -/
theorem mulPow_wrap : mulPow crcPoly (2 ^ 32) p = mulPow crcPoly 1 p := by
  apply mulPow_congr
  rw [← mul_self_mulPow, ← x2nTable_eq (by decide), x2nTable_squares.2.2]
  exact x2nTable_squares.1

theorem mulPow_wrap_pow (k : Nat) :
    mulPow crcPoly (2 ^ (k + 32)) p = mulPow crcPoly (2 ^ k) p := by
  have hmap : mulPow crcPoly (2 ^ 32) = mulPow crcPoly 1 := funext fun p => mulPow_wrap
  rw [pow_add, Nat.mul_comm, mulPow_mul, hmap, ← mulPow_mul, Nat.one_mul]

/-- `x2n_table[k & 31]` is x^(2^k) for every `k`. -/
theorem x2nTable_mod (k : Nat) : x2nTable.getD (k % 32) 0 = mulPow crcPoly (2 ^ k) (one 32) := by
  induction k using Nat.strong_induction_on with
  | h k ih =>
    by_cases hk : k < 32
    · rw [Nat.mod_eq_of_lt hk, x2nTable_eq hk]
    · have hprev := ih (k - 32) (by omega)
      have hwrap := @mulPow_wrap_pow (one 32) (k - 32)
      rw [Nat.sub_add_cancel (by omega)] at hwrap
      rw [hwrap, ← hprev]
      congr 1
      omega

theorem multmodp_x2nTable (hfuel : 32 ≤ fuel) (k : Nat) :
    multmodp fuel (x2nTable.getD (k % 32) 0) p = some (mulPow crcPoly (2 ^ k) p) := by
  have hone : one 32 ≠ 0#32 := by decide
  rw [x2nTable_mod, multmodp_eq (mulPow_ne_zero crcPoly_msb hone _) hfuel, mulPow_one_mul]

/-- The rest of the exponent, bit by bit. -/
theorem x2nmodpLoop_eq (hfuel : 32 ≤ fuel) {rounds n k : Nat} (h : n < 2 ^ rounds) :
    x2nmodpLoop fuel (rounds + 1) n k p = some (mulPow crcPoly (n * 2 ^ k) p) := by
  induction rounds generalizing n k p with
  | zero =>
    have hn : n = 0 := by omega
    subst hn
    simp [x2nmodpLoop]
  | succ rounds ih =>
    rw [x2nmodpLoop]
    split
    · next hz =>
      have hn : n = 0 := by omega
      subst hn
      simp
    · have hhalf : (n : Int) / 2 = (n / 2 : Nat) := by omega
      have hlt : n / 2 < 2 ^ rounds := by omega
      split
      · next hodd =>
        have hsplit : n * 2 ^ k = n / 2 * 2 ^ (k + 1) + 2 ^ k := by
          have hn : n = 2 * (n / 2) + 1 := by omega
          calc n * 2 ^ k = (2 * (n / 2) + 1) * 2 ^ k := by rw [← hn]
            _ = n / 2 * 2 ^ (k + 1) + 2 ^ k := by ring
        simp only [multmodp_x2nTable hfuel, Option.bind_eq_bind, Option.bind_some, hhalf]
        rw [ih hlt, hsplit, mulPow_add]
      · next heven =>
        have hsplit : n * 2 ^ k = n / 2 * 2 ^ (k + 1) := by
          have hn : n = 2 * (n / 2) := by omega
          calc n * 2 ^ k = (2 * (n / 2)) * 2 ^ k := by rw [← hn]
            _ = n / 2 * 2 ^ (k + 1) := by ring
        simp only [Option.bind_eq_bind, Option.bind_some, hhalf]
        rw [ih hlt, hsplit]

theorem x2nmodp_eq {n k : Nat} (hfuel : 32 ≤ fuel) (hn : n < fuel) :
    x2nmodp fuel n k = some (mulPow crcPoly (n * 2 ^ k) (one 32)) := by
  obtain ⟨rounds, rfl⟩ : ∃ rounds, fuel = rounds + 1 := ⟨fuel - 1, by omega⟩
  exact x2nmodpLoop_eq hfuel ((Nat.le_of_lt_succ hn).trans_lt rounds.lt_two_pow_self)

/-- The operator of a length is never zero, and it moves a check over that many bytes. -/
theorem multmodp_x2nmodp (hfuel : 32 ≤ fuel) (n : Nat) :
    multmodp fuel (mulPow crcPoly n (one 32)) p = some (mulPow crcPoly n p) := by
  have hone : one 32 ≠ 0#32 := by decide
  rw [multmodp_eq (mulPow_ne_zero crcPoly_msb hone n) hfuel, mulPow_one_mul]

end Powers

section Register

theorem crcShift_eq (c : BitVec 32) : crcShift c.toNat = (mulX crcPoly c).toNat := by
  have hbit : c.getLsbD 0 = decide (c.toNat % 2 = 1) := by
    rw [BitVec.getLsbD, Nat.testBit_zero]
  rw [crcShift, mulX, hbit]
  by_cases hodd : c.toNat % 2 = 1
  · rw [if_pos hodd, decide_eq_true hodd, if_pos rfl, BitVec.toNat_xor,
      BitVec.toNat_ushiftRight, Nat.shiftRight_eq_div_pow]
    rfl
  · rw [if_neg hodd, decide_eq_false hodd, if_neg Bool.false_ne_true, BitVec.toNat_ushiftRight,
      Nat.shiftRight_eq_div_pow, pow_one]

theorem crcTable_eq (c : BitVec 32) : crcTable c.toNat = (mulPow crcPoly 8 c).toNat := by
  simp only [crcTable, crcShift_eq]
  rfl

/-- The register after one byte. -/
def crcStep (c : BitVec 32) (b : UInt8) : BitVec 32 :=
  mulPow crcPoly 8 (c ^^^ b.toBitVec.setWidth 32)

/-- The low byte, and the rest. -/
theorem low_xor_high (x : BitVec 32) : x = (x &&& 255#32) ^^^ (x >>> 8 <<< 8) := by
  have hmask : ∀ i < 32, (255#32).getLsbD i = decide (i < 8) := by decide +kernel
  apply BitVec.eq_of_getLsbD_eq
  intro i hi
  rw [BitVec.getLsbD_xor, BitVec.getLsbD_and, hmask i hi, BitVec.getLsbD_shiftLeft,
    BitVec.getLsbD_ushiftRight]
  by_cases h8 : i < 8
  · simp [h8]
  · simp [h8, hi, Nat.add_sub_cancel' (show 8 ≤ i by omega)]

/-- The byte step by its table is eight single steps. -/
theorem crcDo1_eq (c : BitVec 32) (b : UInt8) : crcDo1 c.toNat b = (crcStep c b).toNat := by
  set x := c ^^^ b.toBitVec.setWidth 32 with hx
  have hsplit := low_xor_high x
  have hlow : (x &&& 255#32).toNat = (c.toNat ^^^ b.toNat) % 256 := by
    rw [BitVec.toNat_and, hx, BitVec.toNat_xor, BitVec.toNat_setWidth,
      Nat.mod_eq_of_lt (show b.toBitVec.toNat < 2 ^ 32 by have := b.toNat_lt; simp; omega)]
    exact Nat.and_two_pow_sub_one_eq_mod _ 8
  have hshift : (x >>> 8 <<< 8) >>> 8 = c >>> 8 := by
    apply BitVec.eq_of_getLsbD_eq
    intro i hi
    simp only [BitVec.getLsbD_ushiftRight, BitVec.getLsbD_shiftLeft, hx, BitVec.getLsbD_xor]
    by_cases hw : 8 + i < 32
    · simp [hw]
    · simp [hw, BitVec.getLsbD_of_ge c (8 + i) (by omega)]
  have hhigh : ∀ i < 8, (x >>> 8 <<< 8).getLsbD i = false := by
    intro i hi
    simp [hi]
  calc crcDo1 c.toNat b = crcTable (x &&& 255#32).toNat ^^^ (c >>> 8).toNat := by
        rw [hlow, BitVec.toNat_ushiftRight]
        rfl
    _ = (mulPow crcPoly 8 (x &&& 255#32) ^^^ mulPow crcPoly 8 (x >>> 8 <<< 8)).toNat := by
        rw [crcTable_eq, BitVec.toNat_xor, mulPow_of_low crcPoly _ hhigh, hshift]
    _ = (crcStep c b).toNat := by rw [← mulPow_xor, ← hsplit, hx, crcStep]

theorem foldl_crcDo1 (c : BitVec 32) (buf : List UInt8) :
    buf.foldl crcDo1 c.toNat = (buf.foldl crcStep c).toNat := by
  induction buf generalizing c with
  | nil => rfl
  | cons b buf ih => rw [List.foldl_cons, List.foldl_cons, crcDo1_eq, ih]

/-- The register is affine in its start value. -/
theorem foldl_crcStep_xor (c d : BitVec 32) (buf : List UInt8) :
    buf.foldl crcStep (c ^^^ d) = buf.foldl crcStep c ^^^ mulPow crcPoly (buf.length * 8) d := by
  induction buf generalizing c d with
  | nil => simp
  | cons b buf ih =>
    have hstep : crcStep (c ^^^ d) b = crcStep c b ^^^ mulPow crcPoly 8 d := by
      rw [crcStep, crcStep, ← mulPow_xor]
      congr 1
      ac_rfl
    rw [List.foldl_cons, List.foldl_cons, hstep, ih, ← mulPow_add, List.length_cons, Nat.add_mul,
      Nat.one_mul]

/-- `crc32` on the register. -/
theorem crc32_eq (crc : BitVec 32) (buf : List UInt8) :
    crc32 crc.toNat buf = (buf.foldl crcStep (crc ^^^ 0xffffffff#32) ^^^ 0xffffffff#32).toNat := by
  rw [BitVec.toNat_xor, ← foldl_crcDo1, BitVec.toNat_xor]
  rfl

/-- The check of a buffer after another one. -/
theorem crc32_shift (crc : BitVec 32) (buf : List UInt8) :
    crc32 crc.toNat buf =
      (mulPow crcPoly (buf.length * 8) crc ^^^ BitVec.ofNat 32 (crc32 0 buf)).toNat := by
  have hzero := crc32_eq 0#32 buf
  rw [BitVec.toNat_ofNat, Nat.zero_mod] at hzero
  rw [crc32_eq, hzero, BitVec.ofNat_toNat, BitVec.setWidth_eq, BitVec.xor_comm crc,
    foldl_crcStep_xor, BitVec.zero_xor]
  congr 1
  ac_rfl

end Register

section Combine
variable {fuel : Nat}

theorem crc32CombineGen_eq {len2 : Nat} (hfuel : 32 ≤ fuel) (hlen : len2 < fuel) :
    crc32CombineGen fuel len2 = some (mulPow crcPoly (len2 * 8) (one 32)) := by
  rw [crc32CombineGen, if_neg (by omega), x2nmodp_eq hfuel hlen]
  rfl

theorem crc32CombineOp_eq (hfuel : 32 ≤ fuel) (crc1 crc2 : BitVec 32) (n : Nat) :
    crc32CombineOp fuel crc1 crc2 (mulPow crcPoly n (one 32)) =
      some (mulPow crcPoly n crc1 ^^^ crc2) := by
  rw [crc32CombineOp, multmodp_x2nmodp hfuel]
  rfl

theorem crc32Combine_eq {len2 : Nat} (hfuel : 32 ≤ fuel) (hlen : len2 < fuel)
    (crc1 crc2 : BitVec 32) :
    crc32Combine fuel crc1 crc2 len2 = some (mulPow crcPoly (len2 * 8) crc1 ^^^ crc2) := by
  have hneg : ¬ (len2 : Int) < 0 := by omega
  simp only [crc32Combine, if_neg hneg, x2nmodp_eq hfuel hlen, Option.bind_eq_bind,
    Option.bind_some, multmodp_x2nmodp hfuel]
  rfl

/-- The operator of a negative length is zero, and its application never ends. -/
theorem crc32CombineOp_neg {len2 : Int} (hneg : len2 < 0) (crc1 crc2 : BitVec 32) :
    (crc32CombineGen fuel len2).bind (crc32CombineOp fuel crc1 crc2) = none := by
  rw [crc32CombineGen, if_pos hneg, Option.bind_some, crc32CombineOp, multmodp_zero]
  rfl

end Combine

/-- The two steps end with the result of the one step exactly for the lengths that are not
negative; and the check of two buffers put together is combined from those of the parts. -/
theorem crc32Combine_spec (crc1 crc2 : BitVec 32) (len2 : Int) (crc : BitVec 32)
    (xs ys : List UInt8) :
    ((∃ r, Returns (fun fuel =>
          (crc32CombineGen fuel len2).bind (crc32CombineOp fuel crc1 crc2)) r ∧
        Returns (fun fuel => crc32Combine fuel crc1 crc2 len2) r) ↔ 0 ≤ len2) ∧
    ∃ crc1 crc2 r : BitVec 32,
      crc1.toNat = crc32 crc.toNat xs ∧ crc2.toNat = crc32 crc32InitialValue ys ∧
      Returns (fun fuel => crc32Combine fuel crc1 crc2 ys.length) r ∧
      r.toNat = crc32 crc.toNat (xs ++ ys) := by
  constructor
  · constructor
    · rintro ⟨r, ⟨n, hop⟩, _⟩
      by_contra hneg
      have hnone := (crc32CombineOp_neg (by omega) crc1 crc2).symm.trans (hop n le_rfl)
      cases hnone
    · intro hpos
      obtain ⟨n, rfl⟩ := Int.eq_ofNat_of_zero_le hpos
      refine ⟨mulPow crcPoly (n * 8) crc1 ^^^ crc2, ⟨n + 32, ?_⟩, ⟨n + 32, ?_⟩⟩
      · intro fuel hfuel
        have hgen := @crc32CombineGen_eq fuel n (by omega) (by omega)
        simp only [hgen, Option.bind_some]
        exact crc32CombineOp_eq (by omega) _ _ _
      · intro fuel hfuel
        exact crc32Combine_eq (by omega) (by omega) _ _
  · have hlt : ∀ (crc : BitVec 32) (buf : List UInt8), crc32 crc.toNat buf < 2 ^ 32 := by
      intro crc buf
      rw [crc32_eq]
      exact BitVec.isLt _
    have hx : (BitVec.ofNat 32 (crc32 crc.toNat xs)).toNat = crc32 crc.toNat xs := by
      rw [BitVec.toNat_ofNat, Nat.mod_eq_of_lt (hlt crc xs)]
    have hy : (BitVec.ofNat 32 (crc32 crc32InitialValue ys)).toNat =
        crc32 crc32InitialValue ys := by
      rw [BitVec.toNat_ofNat]
      exact Nat.mod_eq_of_lt (hlt 0 ys)
    refine ⟨_, _, _, hx, hy, ⟨ys.length + 32, fun fuel hfuel =>
      crc32Combine_eq (by omega) (by omega) _ _⟩, ?_⟩
    exact (crc32_shift _ ys).symm.trans (by rw [hx, ← crc32_append])

/-- A negative length: the single step returns, the two steps do not. -/
theorem crc32Combine_neg :
    ¬ ∀ (crc1 crc2 : BitVec 32) (len2 : Int), ∃ r,
      Returns (fun fuel => (crc32CombineGen fuel len2).bind (crc32CombineOp fuel crc1 crc2)) r ∧
      Returns (fun fuel => crc32Combine fuel crc1 crc2 len2) r := by
  intro h
  obtain ⟨r, ⟨n, hop⟩, _⟩ := h 0 0 (-1)
  have hnone := (crc32CombineOp_neg (by decide) 0 0).symm.trans (hop n le_rfl)
  cases hnone

end ZlibNg
