import ZlibNg.Bits.Word
import ZlibNg.Checksum.Adler32Spec

/-! The Adler-32 of two buffers put together, from those of the parts. -/
namespace ZlibNg

/-- `if (sum >= m) sum -= m`. -/
def subtractIf (word : Int → Option Nat) (m sum : Nat) : Option Nat :=
  if sum ≥ m then word ((sum : Int) - m) else some sum

/-- `adler32_combine_`, with one application of `word` for each operation that could leave the
range of `uint32_t`. -/
def adler32Combine (word : Int → Option Nat) (adler1 adler2 : UInt32) (len2 : Int) :
    Option Nat := do
  -- for negative len, return invalid adler32 as a clue for debugging
  if len2 < 0 then return 0xffffffff
  let rem := (len2 % (adlerBase : Int)).toNat
  let sum1 : Nat := adler1.toNat % 2 ^ 16
  let sum2 ← word ((rem : Int) * sum1)
  let sum2 := sum2 % adlerBase
  let low ← word ((adler2.toNat % 2 ^ 16 : Nat) + (adlerBase : Int))
  let low ← word ((low : Int) - 1)
  let sum1 ← word ((sum1 : Int) + low)
  let high ← word ((adler1.toNat / 2 ^ 16 % 2 ^ 16 : Nat) + (adler2.toNat / 2 ^ 16 % 2 ^ 16 : Nat))
  let high ← word ((high : Int) + adlerBase)
  let high ← word ((high : Int) - rem)
  let sum2 ← word ((sum2 : Int) + high)
  let sum1 ← subtractIf word adlerBase sum1
  let sum1 ← subtractIf word adlerBase sum1
  let sum2 ← subtractIf word (2 * adlerBase) sum2
  let sum2 ← subtractIf word adlerBase sum2
  let shifted ← word ((sum2 : Int) * 2 ^ 16)
  return sum1 ||| shifted

section Combine
variable {word : Int → Option Nat}

/-- One conditional subtraction reduces what is below twice the modulus. -/
theorem ExactWord.subtractIf_eq (hword : ExactWord word) {m sum : Nat} (h : sum < 2 * m)
    (hm : sum < 2 ^ 32) : subtractIf word m sum = some (sum % m) := by
  unfold subtractIf
  split
  · next hle =>
    have hmod : sum % m = sum - m := by
      rw [Nat.mod_eq_sub_mod hle, Nat.mod_eq_of_lt (by omega)]
    rw [hmod]
    exact hword.eq (by omega) (by omega)
  · rw [Nat.mod_eq_of_lt (by omega)]

/-- A second one before it, by the modulus or by twice of it, makes up for a larger sum. -/
theorem ExactWord.reduce (hword : ExactWord word) {k m sum : Nat} (hk : k = 1 ∨ k = 2)
    (h : sum < (k + 2) * m) (hm : sum < 2 ^ 32) :
    ∃ t, subtractIf word (k * m) sum = some t ∧ subtractIf word m t = some (sum % m) := by
  by_cases hle : k * m ≤ sum
  · have hfirst : subtractIf word (k * m) sum = some (sum - k * m) := by
      rw [subtractIf, if_pos hle]
      exact hword.eq (by omega) (by omega)
    have hmod : (sum - k * m) % m = sum % m := by
      conv_rhs => rw [← Nat.sub_add_cancel hle, Nat.add_mul_mod_self_right]
    refine ⟨sum - k * m, hfirst, ?_⟩
    rw [← hmod]
    apply hword.subtractIf_eq
    · rw [Nat.add_mul] at h
      omega
    · omega
  · have hfirst : subtractIf word (k * m) sum = some sum := by rw [subtractIf, if_neg hle]
    refine ⟨sum, hfirst, hword.subtractIf_eq ?_ hm⟩
    obtain rfl | rfl := hk <;> omega

/-- What the combination computes from reduced halves. -/
theorem adler32Combine_eq (hword : ExactWord word) {adler1 adler2 : UInt32} {low1 high1 low2 high2 : Nat}
    (h1 : adler1.toNat = low1 + 2 ^ 16 * high1) (h2 : adler2.toNat = low2 + 2 ^ 16 * high2)
    (hl1 : low1 < adlerBase) (hh1 : high1 < adlerBase) (hl2 : low2 < adlerBase)
    (hh2 : high2 < adlerBase) (len2 : Nat) :
    adler32Combine word adler1 adler2 len2 =
      some ((low1 + (low2 + adlerBase - 1)) % adlerBase + 2 ^ 16 *
        ((len2 % adlerBase * low1 % adlerBase + (high1 + high2 + adlerBase - len2 % adlerBase)) %
          adlerBase)) := by
  have hbase : adlerBase = 65521 := rfl
  have hrem : len2 % adlerBase < adlerBase := Nat.mod_lt _ (by decide)
  have hsum : len2 % adlerBase * low1 % adlerBase < adlerBase := Nat.mod_lt _ (by decide)
  have hprod : len2 % adlerBase * low1 ≤ 65520 * 65520 :=
    Nat.mul_le_mul (by omega) (by omega)
  have hlow1 : adler1.toNat % 2 ^ 16 = low1 := by omega
  have hlow2 : adler2.toNat % 2 ^ 16 = low2 := by omega
  have hhigh1 : adler1.toNat / 2 ^ 16 % 2 ^ 16 = high1 := by omega
  have hhigh2 : adler2.toNat / 2 ^ 16 % 2 ^ 16 = high2 := by omega
  have hlen : ((len2 : Int) % (adlerBase : Int)).toNat = len2 % adlerBase := by omega
  have hneg : ¬ (len2 : Int) < 0 := by omega
  generalize hr : len2 % adlerBase = rem at *
  have e1 : word ((rem : Int) * low1) = some (rem * low1) :=
    hword.eq (by push_cast; rfl) (by omega)
  have e2 : word ((low2 : Int) + adlerBase) = some (low2 + adlerBase) :=
    hword.eq (by push_cast; rfl) (by omega)
  have e3 : word (((low2 + adlerBase : Nat) : Int) - 1) = some (low2 + adlerBase - 1) :=
    hword.eq (by omega) (by omega)
  have e4 : word ((low1 : Int) + (low2 + adlerBase - 1 : Nat)) =
      some (low1 + (low2 + adlerBase - 1)) := hword.eq (by omega) (by omega)
  have e5 : word ((high1 : Int) + high2) = some (high1 + high2) :=
    hword.eq (by push_cast; rfl) (by omega)
  have e6 : word (((high1 + high2 : Nat) : Int) + adlerBase) = some (high1 + high2 + adlerBase) :=
    hword.eq (by push_cast; rfl) (by omega)
  have e7 : word (((high1 + high2 + adlerBase : Nat) : Int) - rem) =
      some (high1 + high2 + adlerBase - rem) := hword.eq (by omega) (by omega)
  have e8 : word (((rem * low1 % adlerBase : Nat) : Int) +
      (high1 + high2 + adlerBase - rem : Nat)) =
      some (rem * low1 % adlerBase + (high1 + high2 + adlerBase - rem)) :=
    hword.eq (by push_cast; rfl) (by omega)
  obtain ⟨t1, e9, e10⟩ := @ExactWord.reduce word hword 1 adlerBase
    (low1 + (low2 + adlerBase - 1)) (by decide) (by omega) (by omega)
  obtain ⟨t2, e11, e12⟩ := @ExactWord.reduce word hword 2 adlerBase
    (rem * low1 % adlerBase + (high1 + high2 + adlerBase - rem)) (by decide) (by omega) (by omega)
  rw [Nat.one_mul] at e9
  set sum1 := (low1 + (low2 + adlerBase - 1)) % adlerBase
  set sum2 := (rem * low1 % adlerBase + (high1 + high2 + adlerBase - rem)) % adlerBase
  have hs1 : sum1 < 2 ^ 16 := (Nat.mod_lt _ (by decide)).trans (by decide)
  have hs2 : sum2 < 2 ^ 16 := (Nat.mod_lt _ (by decide)).trans (by decide)
  have e13 : word ((sum2 : Int) * 2 ^ 16) = some (2 ^ 16 * sum2) :=
    hword.eq (by push_cast; ring) (by omega)
  simp only [adler32Combine, if_neg hneg, hlen, hlow1, hlow2, hhigh1, hhigh2, e1, e2, e3, e4, e5,
    e6, e7, e8, e9, e10, e11, e12, e13, Option.bind_eq_bind, Option.bind_some]
  rw [Nat.or_comm, ← Nat.two_pow_add_eq_or_of_lt hs1, Nat.add_comm]
  rfl

/-- The two sums of the whole, from the reduced sums of the parts. -/
theorem adler32Sums_append (adler : UInt32) (xs ys : List UInt8) {low1 high1 low2 high2 : Nat}
    (h1 : adler32Sums adler xs = low1 + 2 ^ 16 * high1)
    (h2 : adler32Sums 1 ys = low2 + 2 ^ 16 * high2)
    (hl1 : low1 < adlerBase) (hh1 : high1 < adlerBase) (hl2 : low2 < adlerBase)
    (hh2 : high2 < adlerBase) :
    adler32Sums adler (xs ++ ys) = (low1 + (low2 + adlerBase - 1)) % adlerBase + 2 ^ 16 *
      ((ys.length % adlerBase * low1 % adlerBase +
        (high1 + high2 + adlerBase - ys.length % adlerBase)) % adlerBase) := by
  have hbase : adlerBase = 65521 := rfl
  simp only [adler32Sums] at h1 h2 ⊢
  set low := adler.toNat % 2 ^ 16
  set high := adler.toNat / 2 ^ 16
  have hone : (1 : UInt32).toNat % 2 ^ 16 = 1 ∧ (1 : UInt32).toNat / 2 ^ 16 = 0 := by decide
  rw [hone.1, hone.2, Nat.zero_add] at h2
  have hm1 := Nat.mod_lt (low + byteSum xs) (show 0 < adlerBase by decide)
  have hm2 := Nat.mod_lt (1 + byteSum ys) (show 0 < adlerBase by decide)
  have hlow1 : low + byteSum xs ≡ low1 [MOD adlerBase] := by
    rw [Nat.ModEq, Nat.mod_eq_of_lt hl1]
    omega
  have hhigh1 : high + runningSum low xs ≡ high1 [MOD adlerBase] := by
    rw [Nat.ModEq, Nat.mod_eq_of_lt hh1]
    omega
  have hlow2 : 1 + byteSum ys ≡ low2 [MOD adlerBase] := by
    rw [Nat.ModEq, Nat.mod_eq_of_lt hl2]
    omega
  have hhigh2 : runningSum 1 ys ≡ high2 [MOD adlerBase] := by
    rw [Nat.ModEq, Nat.mod_eq_of_lt hh2]
    omega
  have hrem := Nat.mod_modEq ys.length adlerBase
  have hremlt := Nat.mod_lt ys.length (show 0 < adlerBase by decide)
  rw [runningSum_start 1, Nat.one_mul] at hhigh2
  rw [byteSum_append, runningSum_append, runningSum_start (low + byteSum xs)]
  refine congrArg₂ (fun a b => a + 2 ^ 16 * b) ?_ ?_
  · apply Nat.ModEq.add_right_cancel' 1
    have hleft : low + (byteSum xs + byteSum ys) + 1 = low + byteSum xs + (1 + byteSum ys) := by
      omega
    have hright : low1 + (low2 + adlerBase - 1) + 1 = low1 + low2 + adlerBase := by omega
    rw [hleft, hright]
    exact (hlow1.add hlow2).trans (Nat.add_modEq_right).symm
  · apply Nat.ModEq.add_right_cancel' (ys.length % adlerBase)
    have hleft : high + (runningSum low xs + ((low + byteSum xs) * ys.length + runningSum 0 ys)) +
        ys.length = ys.length * (low + byteSum xs) + (high + runningSum low xs +
          (ys.length + runningSum 0 ys)) := by ring
    have hright : ys.length % adlerBase * low1 % adlerBase +
        (high1 + high2 + adlerBase - ys.length % adlerBase) + ys.length % adlerBase =
          ys.length % adlerBase * low1 % adlerBase + (high1 + high2) + adlerBase := by omega
    have hprod := (hrem.symm.mul hlow1).trans (Nat.mod_modEq _ _).symm
    have hsum := hprod.add (hhigh1.add hhigh2)
    rw [← hleft] at hsum
    rw [hright]
    exact ((hrem.add_left _).trans hsum).trans (Nat.add_modEq_right).symm

/-- Adler-32 of two buffers put together is combined from the checks of the parts; with the
checked arithmetic no intermediate sum leaves the 32 bits. -/
theorem adler32Combine_append (order : ByteOrder) (adler : UInt32) (addr1 addr2 addr : Nat)
    (xs ys : List UInt8) :
    ∃ adler1 adler2 : UInt32,
      adler32C .wrapping order adler addr1 xs = some adler1.toNat ∧
      adler32C .wrapping order 1 addr2 ys = some adler2.toNat ∧
      adler32Combine wrap32 adler1 adler2 ys.length =
        adler32C .wrapping order adler addr (xs ++ ys) ∧
      adler32Combine fit32 adler1 adler2 ys.length =
        adler32C .wrapping order adler addr (xs ++ ys) := by
  have hlt : ∀ (start : UInt32) (bytes : List UInt8), ∃ low high, low < adlerBase ∧
      high < adlerBase ∧ adler32Sums start bytes = low + 2 ^ 16 * high := fun start bytes =>
    ⟨_, _, Nat.mod_lt _ (by decide), Nat.mod_lt _ (by decide), rfl⟩
  obtain ⟨low1, high1, hl1, hh1, hx⟩ := hlt adler xs
  obtain ⟨low2, high2, hl2, hh2, hy⟩ := hlt 1 ys
  have hbase : adlerBase = 65521 := rfl
  have hn1 : (UInt32.ofNat (adler32Sums adler xs)).toNat = adler32Sums adler xs :=
    UInt32.toNat_ofNat_of_lt' (by simp only [UInt32.size]; omega)
  have hn2 : (UInt32.ofNat (adler32Sums 1 ys)).toNat = adler32Sums 1 ys :=
    UInt32.toNat_ofNat_of_lt' (by simp only [UInt32.size]; omega)
  refine ⟨UInt32.ofNat (adler32Sums adler xs), UInt32.ofNat (adler32Sums 1 ys), ?_, ?_, ?_, ?_⟩
  · rw [hn1, (adler32C_correct order adler addr1 xs).1]
  · rw [hn2, (adler32C_correct order 1 addr2 ys).1]
  · rw [(adler32C_correct order adler addr (xs ++ ys)).1,
      adler32Sums_append adler xs ys hx hy hl1 hh1 hl2 hh2]
    exact adler32Combine_eq wrap32_exact (hn1.trans hx) (hn2.trans hy) hl1 hh1 hl2 hh2 _
  · rw [(adler32C_correct order adler addr (xs ++ ys)).1,
      adler32Sums_append adler xs ys hx hy hl1 hh1 hl2 hh2]
    exact adler32Combine_eq fit32_exact (hn1.trans hx) (hn2.trans hy) hl1 hh1 hl2 hh2 _

end Combine
end ZlibNg
