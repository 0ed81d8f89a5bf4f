import Mathlib.Data.Nat.Bitwise
import Mathlib.Data.List.Basic
import Mathlib.Tactic.Linarith
import Mathlib.Tactic.Ring

/-! Finite bit streams, least significant bit first, as a value and a length. Byte
strings are their little-endian values, so that consuming bits is division by a power of two. -/
namespace ZlibNg

/-- The little-endian value of a byte string. -/
def leNat : List UInt8 → Nat
  | [] => 0
  | b :: bs => b.toNat + 256 * leNat bs

@[simp] theorem leNat_nil : leNat [] = 0 := rfl

@[simp] theorem leNat_cons (b : UInt8) (bs : List UInt8) :
    leNat (b :: bs) = b.toNat + 256 * leNat bs := rfl

theorem leNat_append (xs ys : List UInt8) :
    leNat (xs ++ ys) = leNat xs + 2 ^ (8 * xs.length) * leNat ys := by
  induction xs with
  | nil => simp
  | cons x xs ih =>
    have hp : 2 ^ (8 * (xs.length + 1)) = 256 * 2 ^ (8 * xs.length) := by
      rw [Nat.mul_add, Nat.pow_add]; omega
    simp only [List.cons_append, leNat_cons, ih, List.length_cons, hp]
    ring

theorem leNat_lt (xs : List UInt8) : leNat xs < 2 ^ (8 * xs.length) := by
  induction xs with
  | nil => simp
  | cons x xs ih =>
    have hp : 2 ^ (8 * (xs.length + 1)) = 256 * 2 ^ (8 * xs.length) := by
      rw [Nat.mul_add, Nat.pow_add]; omega
    have hx := x.toNat_lt
    simp only [leNat_cons, List.length_cons, hp]
    omega

/-- The `n` bytes of a memory from address `p` on. -/
def bytesAt (mem : Int → UInt8) : Int → Nat → List UInt8
  | _, 0 => []
  | p, n + 1 => mem p :: bytesAt mem (p + 1) n

@[simp] theorem length_bytesAt (mem : Int → UInt8) (p : Int) (n : Nat) :
    (bytesAt mem p n).length = n := by
  induction n generalizing p with
  | zero => rfl
  | succ n ih => simp [bytesAt, ih]

theorem bytesAt_add (mem : Int → UInt8) (p : Int) (m n : Nat) :
    bytesAt mem p (m + n) = bytesAt mem p m ++ bytesAt mem (p + m) n := by
  induction m generalizing p with
  | zero => simp [bytesAt]
  | succ m ih =>
    rw [Nat.succ_add, bytesAt, ih, bytesAt, List.cons_append]
    congr 3
    push_cast
    ring

/-- A bit string of length `len`; bit `i` is bit `i` of `val`. -/
@[ext] structure BitStream where
  val : Nat
  len : Nat
  lt : val < 2 ^ len

namespace BitStream

/-- The bits of a byte string, low bit of the first byte first. -/
def ofBytes (bs : List UInt8) : BitStream := ⟨leNat bs, 8 * bs.length, leNat_lt bs⟩

/-- The value of the first `n` bits. -/
def peek (s : BitStream) (n : Nat) : Nat := s.val % 2 ^ n

/-- The stream without its first `n` bits. -/
def drop (s : BitStream) (n : Nat) : BitStream :=
  ⟨s.val / 2 ^ n, s.len - n, by
    have h := s.lt
    rw [Nat.div_lt_iff_lt_mul (Nat.two_pow_pos n), ← Nat.pow_add]
    exact h.trans_le (Nat.pow_le_pow_right (by norm_num) (by omega))⟩

/-- The stream followed by more bits. -/
def append (s t : BitStream) : BitStream :=
  ⟨s.val + 2 ^ s.len * t.val, s.len + t.len, by
    have hs := s.lt
    have ht := t.lt
    rw [Nat.pow_add]
    calc s.val + 2 ^ s.len * t.val < 2 ^ s.len + 2 ^ s.len * t.val := by omega
      _ = 2 ^ s.len * (t.val + 1) := by ring
      _ ≤ 2 ^ s.len * 2 ^ t.len := Nat.mul_le_mul_left _ ht⟩

@[simp] theorem drop_val (s : BitStream) (n : Nat) : (s.drop n).val = s.val / 2 ^ n := rfl
@[simp] theorem drop_len (s : BitStream) (n : Nat) : (s.drop n).len = s.len - n := rfl
@[simp] theorem append_val (s t : BitStream) : (s.append t).val = s.val + 2 ^ s.len * t.val := rfl
@[simp] theorem append_len (s t : BitStream) : (s.append t).len = s.len + t.len := rfl
@[simp] theorem ofBytes_val (bs : List UInt8) : (ofBytes bs).val = leNat bs := rfl
@[simp] theorem ofBytes_len (bs : List UInt8) : (ofBytes bs).len = 8 * bs.length := rfl

@[simp] theorem drop_zero (s : BitStream) : s.drop 0 = s := by
  ext <;> simp

@[simp] theorem append_nil (s : BitStream) : s.append (ofBytes []) = s := by
  ext <;> simp

theorem drop_val_div (s : BitStream) (m n : Nat) : (s.drop m).val / 2 ^ n = s.val / 2 ^ (m + n) := by
  rw [drop_val, Nat.div_div_eq_div_mul, ← Nat.pow_add]

theorem drop_drop (s : BitStream) (m n : Nat) : (s.drop m).drop n = s.drop (m + n) := by
  ext
  · simp [Nat.div_div_eq_div_mul, Nat.pow_add]
  · simp; omega

theorem append_assoc (s t u : BitStream) : (s.append t).append u = s.append (t.append u) := by
  ext
  · simp only [append_val, append_len, Nat.pow_add]; ring
  · simp only [append_len]; omega

theorem ofBytes_append (xs ys : List UInt8) :
    ofBytes (xs ++ ys) = (ofBytes xs).append (ofBytes ys) := by
  ext
  · simp [leNat_append]
  · simp; omega

/-- Bits that are already there do not change when more are appended. -/
theorem peek_append {s : BitStream} {n : Nat} (h : n ≤ s.len) (t : BitStream) :
    (s.append t).peek n = s.peek n := by
  obtain ⟨k, hk⟩ := Nat.exists_eq_add_of_le h
  simp only [peek, append_val, hk, Nat.pow_add, Nat.mul_assoc, Nat.add_mul_mod_self_left]

theorem drop_append {s : BitStream} {n : Nat} (h : n ≤ s.len) (t : BitStream) :
    (s.append t).drop n = (s.drop n).append t := by
  obtain ⟨k, hk⟩ := Nat.exists_eq_add_of_le h
  ext
  · simp only [append_val, drop_val, drop_len, hk, Nat.pow_add, Nat.mul_assoc,
      Nat.add_mul_div_left _ _ (Nat.two_pow_pos n), Nat.add_sub_cancel_left]
  · simp only [append_len, drop_len]; omega

end BitStream
end ZlibNg
