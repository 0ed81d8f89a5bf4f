import ZlibNg.Bits.Stream

/-! Reversal of sixteen-bit words, and the correspondence between the first bits of a
stream and the leading digits of its reversal. -/
namespace ZlibNg

/-- `bitrev8` of fallback_builtins.h, by multiplication. -/
def bitrev8 (value : Nat) : Nat :=
  (((value % 256 * 0x80200802 &&& 0x0884422110) * 0x0101010101 % 2 ^ 64) >>> 32) % 256

/-- `zng_bitreverse16`. -/
def zngBitreverse16 (value : Nat) : Nat :=
  bitrev8 (value >>> 8) ||| (bitrev8 value) <<< 8

theorem bitrev8_testBit : ∀ v < 256, ∀ i < 8,
    (bitrev8 v).testBit i = v.testBit (7 - i) := by
  decide +kernel

theorem bitrev8_lt (v : Nat) : bitrev8 v < 2 ^ 8 := Nat.mod_lt _ (by norm_num)

theorem bitrev8_mod (v : Nat) : bitrev8 (v % 256) = bitrev8 v := by
  simp [bitrev8]

theorem zngBitreverse16_testBit (v i : Nat) :
    (zngBitreverse16 v).testBit i = (decide (i < 16) && v.testBit (15 - i)) := by
  rw [zngBitreverse16, Nat.testBit_or, Nat.testBit_shiftLeft, ← bitrev8_mod (v >>> 8),
    ← bitrev8_mod v]
  rcases Nat.lt_or_ge i 8 with h | h
  · rw [bitrev8_testBit _ (Nat.mod_lt _ (by norm_num)) i h]
    have e : 8 + (7 - i) = 15 - i := by omega
    simp only [show (256 : Nat) = 2 ^ 8 by norm_num, Nat.testBit_mod_two_pow,
      Nat.testBit_shiftRight, e]
    simp [show 7 - i < 8 by omega, show ¬ 8 ≤ i by omega, show i < 16 by omega]
  · have hz : (bitrev8 ((v >>> 8) % 256)).testBit i = false :=
      Nat.testBit_lt_two_pow ((bitrev8_lt _).trans_le (Nat.pow_le_pow_right (by norm_num) h))
    rw [hz]
    rcases Nat.lt_or_ge i 16 with h' | h'
    · rw [bitrev8_testBit _ (Nat.mod_lt _ (by norm_num)) (i - 8) (by omega)]
      have e : 7 - (i - 8) = 15 - i := by omega
      simp only [show (256 : Nat) = 2 ^ 8 by norm_num, Nat.testBit_mod_two_pow, e]
      simp [h, h', show 15 - i < 8 by omega]
    · have hz' : (bitrev8 (v % 256)).testBit (i - 8) = false :=
        Nat.testBit_lt_two_pow ((bitrev8_lt _).trans_le
          (Nat.pow_le_pow_right (by norm_num) (by omega)))
      simp [hz', show ¬ i < 16 by omega]

theorem zngBitreverse16_lt (v : Nat) : zngBitreverse16 v < 2 ^ 16 := by
  apply Nat.lt_pow_two_of_testBit
  intro i hi
  rw [zngBitreverse16_testBit]
  simp [show ¬ i < 16 by omega]

theorem zngBitreverse16_reverse {v : Nat} (hv : v < 2 ^ 16) :
    zngBitreverse16 (zngBitreverse16 v) = v := by
  apply Nat.eq_of_testBit_eq
  intro i
  rw [zngBitreverse16_testBit, zngBitreverse16_testBit]
  rcases Nat.lt_or_ge i 16 with h | h
  · simp [h, show 15 - i < 16 by omega, show 15 - (15 - i) = i by omega]
  · rw [Nat.testBit_lt_two_pow (hv.trans_le (Nat.pow_le_pow_right (by norm_num) h))]
    simp [show ¬ i < 16 by omega]

theorem zngBitreverse16_mod (v : Nat) :
    zngBitreverse16 (v % 2 ^ 16) = zngBitreverse16 v := by
  apply Nat.eq_of_testBit_eq
  intro i
  rw [zngBitreverse16_testBit, zngBitreverse16_testBit, Nat.testBit_mod_two_pow]
  simp [show 15 - i < 16 by omega]

/-- The reversal of a multiple of `2 ^ (16 - l)` has `l` digits. -/
theorem zngBitreverse16_lt_of_dvd {v l : Nat} (h : 2 ^ (16 - l) ∣ v) :
    zngBitreverse16 v < 2 ^ l := by
  obtain ⟨q, rfl⟩ := h
  apply Nat.lt_pow_two_of_testBit
  intro i hi
  rw [zngBitreverse16_testBit, Nat.testBit_two_pow_mul]
  rcases Nat.lt_or_ge i 16 with h' | h'
  · simp [show ¬ 16 - l ≤ 15 - i by omega]
  · simp [show ¬ i < 16 by omega]

/-- The first `l` bits of a stream are the leading `l` digits of its reversal. -/
theorem mod_two_pow_eq_iff_reverse (v w : Nat) {l : Nat} (hl : l ≤ 16) :
    v % 2 ^ l = w % 2 ^ l ↔
      zngBitreverse16 v / 2 ^ (16 - l) = zngBitreverse16 w / 2 ^ (16 - l) := by
  constructor
  · intro h
    apply Nat.eq_of_testBit_eq
    intro i
    simp only [Nat.testBit_div_two_pow, zngBitreverse16_testBit]
    rcases Nat.lt_or_ge (i + (16 - l)) 16 with h' | h'
    · have hb := congrArg (fun x => x.testBit (15 - (i + (16 - l)))) h
      simp only [Nat.testBit_mod_two_pow,
        show 15 - (i + (16 - l)) < l by omega, decide_true, Bool.true_and] at hb
      rw [hb]
    · simp [show ¬ i + (16 - l) < 16 by omega]
  · intro h
    apply Nat.eq_of_testBit_eq
    intro i
    rw [Nat.testBit_mod_two_pow, Nat.testBit_mod_two_pow]
    rcases Nat.lt_or_ge i l with h' | h'
    · have hb := congrArg (fun x => x.testBit (15 - i - (16 - l))) h
      simp only [Nat.testBit_div_two_pow, zngBitreverse16_testBit,
        show 15 - i - (16 - l) + (16 - l) = 15 - i by omega,
        show 15 - i < 16 by omega, decide_true, Bool.true_and,
        show 15 - (15 - i) = i by omega] at hb
      rw [hb]
    · simp [show ¬ i < l by omega]

end ZlibNg
