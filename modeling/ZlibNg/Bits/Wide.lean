import ZlibNg.Bits.Program

/-! A 64-bit accumulator that is filled eight bytes at a time. Above the bits that count as held
it keeps further bits of the input; unused bytes are given back at the end. -/
namespace ZlibNg

theorem BitReader.stream_div (r : BitReader) {j : Nat} (hj : j ≤ r.have_) :
    r.stream.val / 2 ^ (r.bits + 8 * j) = leNat (bytesAt r.mem (r.next + j) (r.have_ - j)) := by
  obtain ⟨k, hk⟩ := Nat.exists_eq_add_of_le hj
  rw [stream_val, hk, bytesAt_add, leNat_append, length_bytesAt, Nat.pow_add,
    ← Nat.div_div_eq_div_mul, Nat.add_mul_div_left _ _ (Nat.two_pow_pos _),
    Nat.div_eq_of_lt r.lt, Nat.zero_add, Nat.add_mul_div_left _ _ (Nat.two_pow_pos _),
    Nat.div_eq_of_lt (by simpa using leNat_lt (bytesAt r.mem r.next j)), Nat.zero_add,
    Nat.add_sub_cancel_left]

theorem leNat_bytesAt_mod (mem : Int → UInt8) (p : Int) {m n : Nat} (h : m ≤ n) :
    leNat (bytesAt mem p n) % 2 ^ (8 * m) = leNat (bytesAt mem p m) := by
  obtain ⟨k, rfl⟩ := Nat.exists_eq_add_of_le h
  rw [bytesAt_add, leNat_append, length_bytesAt, Nat.add_mul_mod_self_left,
    Nat.mod_eq_of_lt (by simpa using leNat_lt (bytesAt mem p m))]

/-- The accumulator after `c` bits of the stream of `r`: `bits` bits are held, `k` are right. -/
structure WideAt (r : BitReader) (c k : Nat) (next : Int) (hold bits : Nat) : Prop where
  hold_eq : hold = r.stream.val / 2 ^ c % 2 ^ k
  bits_le : bits ≤ k
  k_le : k ≤ 64
  pos : 8 * (next - r.next) + r.bits = c + bits
  ge : r.next ≤ next
  le : next ≤ r.next + r.have_

namespace WideAt
variable {r : BitReader} {c k : Nat} {next : Int} {hold bits : Nat}

theorem start (h : r.bits ≤ 64) : WideAt r 0 r.bits r.next r.hold r.bits :=
  ⟨by rw [pow_zero, Nat.div_one, r.hold_eq_peek, BitStream.peek], le_rfl, h, by simp, le_rfl, by omega⟩

theorem mod (h : WideAt r c k next hold bits) {n : Nat} (hn : n ≤ bits) :
    hold % 2 ^ n = r.stream.val / 2 ^ c % 2 ^ n := by
  rw [h.hold_eq, Nat.mod_mod_of_dvd _ (Nat.pow_dvd_pow 2 (hn.trans h.bits_le))]

theorem drop (h : WideAt r c k next hold bits) {n : Nat} (hn : n ≤ bits) :
    WideAt r (c + n) (k - n) next (hold >>> n) (bits - n) := by
  have hb := h.bits_le
  have hk := h.k_le
  have hpos := h.pos
  refine ⟨?_, by omega, by omega, by omega, h.ge, h.le⟩
  obtain ⟨m, rfl⟩ := Nat.exists_eq_add_of_le (hn.trans hb)
  rw [h.hold_eq, Nat.shiftRight_eq_div_pow, Nat.pow_add, Nat.mod_mul_right_div_self,
    Nat.div_div_eq_div_mul, ← Nat.pow_add, Nat.add_sub_cancel_left]

/-- Bits that are there already are written over by the same ones. -/
theorem or_shift {y k bits : Nat} (hb : bits ≤ k) (hk : k ≤ 64) :
    y % 2 ^ k ||| (y / 2 ^ bits % 2 ^ 64) <<< bits % 2 ^ 64 = y % 2 ^ 64 := by
  refine Nat.eq_of_testBit_eq fun i => ?_
  simp only [Nat.testBit_or, Nat.testBit_mod_two_pow, Nat.testBit_shiftLeft, Nat.testBit_div_two_pow]
  rcases Nat.lt_or_ge i bits with hi | hi
  · simp [show i < k by omega, show i < 64 by omega, show ¬ bits ≤ i by omega]
  · rcases Nat.lt_or_ge i 64 with hi' | hi'
    · simp [hi, hi', show i - bits < 64 by omega, Nat.sub_add_cancel hi]
    · simp [show ¬ i < k by omega, show ¬ i < 64 by omega]

theorem refill (h : WideAt r c k next hold bits) (hroom : next + 8 ≤ r.next + r.have_)
    (hbits : bits < 64) :
    WideAt r c 64 (next + ((63 ^^^ bits) >>> 3 : Nat))
      (hold ||| leNat (bytesAt r.mem next 8) <<< bits % 2 ^ 64) (bits ||| 56) := by
  have harith : ∀ b < 64, (63 ^^^ b) >>> 3 = 7 - b / 8 ∧ b ||| 56 = b % 8 + 56 := by decide
  obtain ⟨h1, h2⟩ := harith bits hbits
  have hpos := h.pos
  have hge := h.ge
  rw [h1, h2]
  obtain ⟨j, hj⟩ := Int.eq_ofNat_of_zero_le (show 0 ≤ next - r.next by omega)
  refine ⟨?_, by omega, le_rfl, by omega, by omega, by omega⟩
  have hload : r.stream.val / 2 ^ c / 2 ^ bits % 2 ^ 64 = leNat (bytesAt r.mem next 8) := by
    rw [Nat.div_div_eq_div_mul, ← Nat.pow_add, show c + bits = r.bits + 8 * j by omega,
      r.stream_div (by omega), show r.next + j = next by omega]
    exact leNat_bytesAt_mod r.mem next (m := 8) (by omega)
  rw [h.hold_eq, ← hload, or_shift h.bits_le h.k_le]

/-- Give whole bytes back: no more than were taken from the input, if fewer than eight of the
bits held at the start are left. -/
theorem rewind (h : WideAt r c k next hold bits) (hc : r.bits < c + 8) :
    r.next ≤ next - (bits >>> 3 : Nat) ∧
    (BitReader.mk r.mem (next - (bits >>> 3 : Nat))
      (r.next + r.have_ - (next - (bits >>> 3 : Nat))).toNat
      (hold % 2 ^ (bits - (bits >>> 3) <<< 3)) (bits - (bits >>> 3) <<< 3)
      (Nat.mod_lt _ (Nat.two_pow_pos _))).stream = r.stream.drop c := by
  have hpos := h.pos
  have hge := h.ge
  have hle := h.le
  have h3 : (bits >>> 3) <<< 3 = bits / 8 * 8 := by
    rw [Nat.shiftLeft_eq, Nat.shiftRight_eq_div_pow]
  rw [h3, Nat.shiftRight_eq_div_pow, show bits - bits / 8 * 8 = bits % 8 by omega]
  norm_num only
  have hj0 : 0 ≤ next - (bits / 8 : Nat) - r.next := by omega
  refine ⟨by omega, ?_⟩
  obtain ⟨j, hj⟩ := Int.eq_ofNat_of_zero_le hj0
  have hhave : (r.next + r.have_ - (next - (bits / 8 : Nat))).toNat = r.have_ - j := by omega
  have hnext : next - (bits / 8 : Nat) = r.next + j := by omega
  have hbits := Nat.mod_le bits 8
  ext
  · rw [BitReader.stream_val, BitStream.drop_val]
    dsimp only
    rw [hhave, hnext, ← r.stream_div (show j ≤ r.have_ by omega), h.mod hbits,
      show r.bits + 8 * j = c + bits % 8 by omega, Nat.pow_add, ← Nat.div_div_eq_div_mul]
    exact Nat.mod_add_div _ _
  · rw [BitReader.stream_len, BitStream.drop_len, BitReader.stream_len]
    dsimp only
    omega

end WideAt
end ZlibNg
