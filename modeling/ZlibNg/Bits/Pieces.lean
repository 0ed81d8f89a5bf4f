import ZlibNg.Bits.Stream
import ZlibNg.Gzip.Header

/-! Bit strings put together from pieces: a value and a length at a time, and padding with zero
bits to whole bytes. -/
namespace ZlibNg

theorem leBytes_add (w m n : Nat) : leBytes w (m + n) = leBytes w m ++ leBytes (w >>> (8 * m)) n := by
  induction m generalizing w with
  | zero => simp [leBytes]
  | succ m ih =>
    rw [Nat.succ_add, leBytes, ih, leBytes, List.cons_append, ← Nat.shiftRight_add,
      Nat.mul_succ, Nat.add_comm 8]

theorem take_leBytes (w : Nat) {m n : Nat} (h : m ≤ n) : (leBytes w n).take m = leBytes w m := by
  obtain ⟨k, rfl⟩ := Nat.exists_eq_add_of_le h
  rw [leBytes_add, List.take_left' (length_leBytes w m)]

namespace BitStream

/-- The low `n` bits of a value. -/
def ofNat (v n : Nat) : BitStream := ⟨v % 2 ^ n, n, Nat.mod_lt _ (Nat.two_pow_pos n)⟩

@[simp] theorem ofNat_val (v n : Nat) : (ofNat v n).val = v % 2 ^ n := rfl
@[simp] theorem ofNat_len (v n : Nat) : (ofNat v n).len = n := rfl

@[simp] theorem append_ofNat_zero (s : BitStream) (v : Nat) : s.append (ofNat v 0) = s := by
  ext
  · simp [Nat.mod_one]
  · simp

theorem ofNat_append {v m : Nat} (w n : Nat) (h : v < 2 ^ m) :
    (ofNat v m).append (ofNat w n) = ofNat (v + 2 ^ m * (w % 2 ^ n)) (m + n) := by
  have hlt : v + 2 ^ m * (w % 2 ^ n) < 2 ^ (m + n) := by
    have := ((ofNat v m).append (ofNat w n)).lt
    simpa [Nat.mod_eq_of_lt h] using this
  ext
  · simp only [append_val, ofNat_val, ofNat_len, Nat.mod_eq_of_lt h, Nat.mod_eq_of_lt hlt]
  · simp only [append_len, ofNat_len]

/-- The low bytes of a value are its low bits. -/
theorem ofBytes_leBytes (v n : Nat) : ofBytes (leBytes v n) = ofNat v (8 * n) := by
  ext
  · simp [leNat_leBytes]
  · simp

/-- A piece cut in two. -/
theorem ofNat_split (v m n : Nat) :
    ofNat v (m + n) = (ofNat v m).append (ofNat (v >>> m) n) := by
  ext
  · simp only [append_val, ofNat_val, ofNat_len, Nat.shiftRight_eq_div_pow, Nat.pow_add, Nat.mod_mul]
  · simp only [append_len, ofNat_len]

theorem ofNat_mod (v n : Nat) : ofNat (v % 2 ^ n) n = ofNat v n := by
  ext
  · simp
  · rfl

/-- A piece that is dropped again. -/
theorem drop_ofNat_append (v n : Nat) (t : BitStream) : ((ofNat v n).append t).drop n = t := by
  rw [drop_append (show n ≤ (ofNat v n).len from le_rfl)]
  ext
  · simp [Nat.div_eq_of_lt (Nat.mod_lt v (Nat.two_pow_pos n))]
  · simp

/-- The zero bits up to the next whole byte. -/
def padBits (n : Nat) : Nat := (8 - n % 8) % 8

/-- The stream padded with zero bits to whole bytes. -/
def pad (s : BitStream) : BitStream := s.append (ofNat 0 (padBits s.len))

/-- A value that fits in fewer bits is followed by zeros. -/
theorem ofNat_pad {v m : Nat} (h : v < 2 ^ m) (n : Nat) :
    ofNat v (m + n) = (ofNat v m).append (ofNat 0 n) := by
  rw [ofNat_append 0 n h, Nat.zero_mod, Nat.mul_zero, Nat.add_zero]

/-- The bits used in the last byte. -/
def lastBits (n : Nat) : Nat := if n % 8 = 0 then 8 else n % 8

end BitStream
end ZlibNg
