import ZlibNg.Bits.Stream
import ZlibNg.Checksum.Update

/-! The header of a gzip member: its fields, and the bytes they are written as. -/
namespace ZlibNg

/-- A value read back from its bytes. -/
theorem leNat_leBytes (w n : Nat) : leNat (leBytes w n) = w % 2 ^ (8 * n) := by
  induction n generalizing w with
  | zero => simp [leBytes, Nat.mod_one]
  | succ n ih =>
    have hpow : 2 ^ (8 * (n + 1)) = 256 * 2 ^ (8 * n) := by
      rw [Nat.mul_succ, Nat.pow_add]
      ring
    rw [leBytes, leNat_cons, ih, hpow, Nat.mod_mul, Nat.shiftRight_eq_div_pow]
    simp

@[simp] theorem length_leBytes (w n : Nat) : (leBytes w n).length = n := by
  induction n generalizing w with
  | zero => rfl
  | succ n ih => simp [leBytes, ih]

/-- Only the low bytes of a value are written. -/
theorem leBytes_mod (w n : Nat) : leBytes (w % 2 ^ (8 * n)) n = leBytes w n := by
  induction n generalizing w with
  | zero => rfl
  | succ n ih =>
    have hpow : 2 ^ (8 * (n + 1)) = 256 * 2 ^ (8 * n) := by
      rw [Nat.mul_succ, Nat.pow_add]
      ring
    have hlow : w % 2 ^ (8 * (n + 1)) % 256 = w % 256 := by
      rw [hpow, Nat.mod_mul_right_mod]
    have hhigh : (w % 2 ^ (8 * (n + 1))) >>> 8 = (w >>> 8) % 2 ^ (8 * n) := by
      simp only [Nat.shiftRight_eq_div_pow, hpow, Nat.reducePow]
      exact Nat.mod_mul_right_div_self ..
    rw [leBytes, leBytes, hhigh, ih]
    congr 1
    rw [← UInt8.toNat_inj, UInt8.toNat_ofNat', UInt8.toNat_ofNat']
    exact hlow

namespace Gzip

/-- The flag byte. -/
def flagByte (text hcrc extra name comment : Bool) : Nat :=
  text.toNat + 2 * hcrc.toNat + 4 * extra.toNat + 8 * name.toNat + 16 * comment.toNat

/-- The fields of a header; a string comes without the zero at its end. -/
structure Fields where
  text : Bool
  time : Nat
  xflags : Nat
  os : Nat
  extra : Option (List UInt8)
  name : Option (List UInt8)
  comment : Option (List UInt8)
  hcrc : Bool

namespace Fields
variable (f : Fields)

def flag : Nat := flagByte f.text f.hcrc f.extra.isSome f.name.isSome f.comment.isSome

/-- The method and the flags, as they are read together. -/
def flagWord : Nat := 8 + 256 * f.flag

/-- The part of the header of fixed length. -/
def fixed : List UInt8 :=
  [31, 139] ++ leBytes f.flagWord 2 ++ leBytes f.time 4 ++ [UInt8.ofNat f.xflags, UInt8.ofNat f.os]

def extraLength : List UInt8 := f.extra.elim [] fun e => leBytes e.length 2
def extraData : List UInt8 := f.extra.getD []
def nameData : List UInt8 := f.name.elim [] (· ++ [0])
def commentData : List UInt8 := f.comment.elim [] (· ++ [0])

/-- The header before its check value. -/
def front : List UInt8 :=
  f.fixed ++ f.extraLength ++ f.extraData ++ f.nameData ++ f.commentData

def checkData : List UInt8 := if f.hcrc then leBytes (crc32 crc32InitialValue f.front) 2 else []

def bytes : List UInt8 := f.front ++ f.checkData

/-- What can be written: the numbers fit, and the strings have no zero in them. -/
structure Ok : Prop where
  time : f.time < 2 ^ 32
  xflags : f.xflags < 256
  os : f.os < 256
  extra : ∀ e, f.extra = some e → e.length < 2 ^ 16
  name : ∀ n, f.name = some n → 0 ∉ n
  comment : ∀ n, f.comment = some n → 0 ∉ n

/-- The flags of a header are told apart in its flag word. -/
theorem flagWord_flags :
    UInt32.ofNat f.flagWord &&& 0xff = UInt32.ofNat 8 ∧ UInt32.ofNat f.flagWord &&& 0xe000 = 0 ∧
      (f.flagWord >>> 8) % 2 = f.text.toNat ∧ f.flagWord < 2 ^ 16 ∧
      ((UInt32.ofNat f.flagWord).toNat >>> 9) % 2 = f.hcrc.toNat ∧ UInt32.ofNat f.flagWord ≠ 0 := by
  unfold flagWord flag
  generalize f.text = a, f.hcrc = b, f.extra.isSome = c, f.name.isSome = d, f.comment.isSome = e
  revert a b c d e
  decide

theorem leBytes_flagWord : leBytes f.flagWord 2 = [8, UInt8.ofNat f.flag] := by
  unfold flagWord flag
  generalize f.text = a, f.hcrc = b, f.extra.isSome = c, f.name.isSome = d, f.comment.isSome = e
  revert a b c d e
  decide

theorem flagWord_fields :
    (UInt32.ofNat f.flagWord &&& 0x0200 ≠ 0 ↔ f.hcrc = true) ∧
      (UInt32.ofNat f.flagWord &&& 0x0400 ≠ 0 ↔ f.extra.isSome = true) ∧
      (UInt32.ofNat f.flagWord &&& 0x0800 ≠ 0 ↔ f.name.isSome = true) ∧
      (UInt32.ofNat f.flagWord &&& 0x1000 ≠ 0 ↔ f.comment.isSome = true) := by
  unfold flagWord flag
  generalize f.text = a, f.hcrc = b, f.extra.isSome = c, f.name.isSome = d, f.comment.isSome = e
  revert a b c d e
  decide

end Fields
end Gzip
end ZlibNg
