import ZlibNg.Bits.Wide

/-! Strings of bytes compared eight at a time: the exclusive or of two words, and the lowest
bit set in it. -/
namespace ZlibNg

/-- The eight bytes at an address, as a little-endian word. -/
def memread8 (mem : Int → UInt8) (p : Int) : Nat := leNat (bytesAt mem p 8)

/-- The number of zero bits below the lowest bit set. -/
def ctz64 (w : Nat) : Nat := ((List.range 64).find? w.testBit).getD 64

/-- `zng_first_diff_byte64`. -/
def firstDiffByte64 (diff : Nat) : Nat := ctz64 diff / 8

/-- `zng_first_bytes_mask64`. -/
def firstBytesMask64 (n : Nat) : Nat := (2 ^ 64 - 1) >>> ((8 - n) * 8)

theorem testBit_of_lt_ctz64 {w i : Nat} (h : i < ctz64 w) (hi : i < 64) : w.testBit i = false := by
  unfold ctz64 at h
  cases hfind : (List.range 64).find? w.testBit with
  | none =>
    rw [List.find?_eq_none] at hfind
    simpa using hfind i (List.mem_range.mpr hi)
  | some k =>
    rw [hfind, Option.getD_some] at h
    have hnot := (List.find?_range_eq_some.mp hfind).2.2 i h
    simpa using hnot

theorem mod_ctz64 (w : Nat) {n : Nat} (h : n ≤ ctz64 w) (hn : n ≤ 64) : w % 2 ^ n = 0 := by
  apply Nat.eq_of_testBit_eq
  intro i
  rw [Nat.testBit_mod_two_pow, Nat.zero_testBit]
  by_cases hi : i < n
  · rw [testBit_of_lt_ctz64 (by omega) (by omega), Bool.and_false]
  · simp [hi]

theorem le_ctz64 {w n : Nat} (h : w % 2 ^ n = 0) (hn : n ≤ 64) : n ≤ ctz64 w := by
  unfold ctz64
  cases hfind : (List.range 64).find? w.testBit with
  | none => exact hn
  | some k =>
    have hk : w.testBit k = true := List.find?_some hfind
    by_contra hlt
    rw [Option.getD_some] at hlt
    have hbit := Nat.testBit_mod_two_pow w n k
    rw [h, Nat.zero_testBit, hk, decide_eq_true (by omega)] at hbit
    exact absurd hbit (by decide)

theorem firstBytesMask64_eq {n : Nat} (h : n ≤ 8) : firstBytesMask64 n = 2 ^ (8 * n) - 1 := by
  have hall : ∀ n < 9, firstBytesMask64 n = 2 ^ (8 * n) - 1 := by decide
  exact hall n (by omega)

theorem leNat_inj {xs ys : List UInt8} (hlen : xs.length = ys.length) (h : leNat xs = leNat ys) :
    xs = ys := by
  induction xs generalizing ys with
  | nil => exact (List.length_eq_zero_iff.mp hlen.symm).symm
  | cons x xs ih =>
    obtain _ | ⟨y, ys⟩ := ys
    · simp at hlen
    · have hx := x.toNat_lt
      have hy := y.toNat_lt
      rw [leNat_cons, leNat_cons] at h
      have hxy : x = y := UInt8.toNat_inj.mp (by omega)
      rw [hxy, ih (by simpa using hlen) (by omega)]

theorem getElem?_bytesAt (mem : Int → UInt8) (p : Int) {n i : Nat} (h : i < n) :
    (bytesAt mem p n)[i]? = some (mem (p + i)) := by
  induction i generalizing p n with
  | zero =>
    obtain ⟨m, rfl⟩ := Nat.exists_eq_succ_of_ne_zero (by omega : n ≠ 0)
    simp [bytesAt]
  | succ i ih =>
    obtain ⟨m, rfl⟩ := Nat.exists_eq_succ_of_ne_zero (by omega : n ≠ 0)
    rw [bytesAt, List.getElem?_cons_succ, ih _ (by omega)]
    congr 2
    push_cast
    ring

/-- Two addresses with the same first `n` bytes. -/
def SameBytes (mem : Int → UInt8) (p q : Int) (n : Nat) : Prop :=
  ∀ i < n, mem (p + i) = mem (q + i)

namespace SameBytes
variable {mem : Int → UInt8} {p q : Int} {m n : Nat}

theorem mono (h : SameBytes mem p q n) (hm : m ≤ n) : SameBytes mem p q m :=
  fun i hi => h i (by omega)

theorem add (h : SameBytes mem p q m) (h' : SameBytes mem (p + m) (q + m) n) :
    SameBytes mem p q (m + n) := by
  intro i hi
  rcases Nat.lt_or_ge i m with hlt | hge
  · exact h i hlt
  · obtain ⟨k, rfl⟩ := Nat.exists_eq_add_of_le hge
    have hk := h' k (by omega)
    rwa [add_assoc, add_assoc, ← Nat.cast_add] at hk

/-- Words that agree in their low bytes. -/
theorem of_mod (h : memread8 mem p % 2 ^ (8 * n) = memread8 mem q % 2 ^ (8 * n)) (hn : n ≤ 8) :
    SameBytes mem p q n := by
  rw [memread8, memread8, leNat_bytesAt_mod mem p hn, leNat_bytesAt_mod mem q hn] at h
  have heq := leNat_inj (by rw [length_bytesAt, length_bytesAt]) h
  intro i hi
  have hp := getElem?_bytesAt mem p hi
  rw [heq, getElem?_bytesAt mem q hi] at hp
  exact (Option.some.inj hp).symm

theorem of_xor (h : (memread8 mem p ^^^ memread8 mem q) % 2 ^ (8 * n) = 0) (hn : n ≤ 8) :
    SameBytes mem p q n := by
  rw [Nat.xor_mod_two_pow, Nat.xor_eq_zero_iff] at h
  exact of_mod h hn

theorem of_eq (h : memread8 mem p = memread8 mem q) : SameBytes mem p q 8 :=
  of_mod (by rw [h]) le_rfl

theorem firstDiff (mem : Int → UInt8) (p q : Int) :
    SameBytes mem p q (firstDiffByte64 (memread8 mem p ^^^ memread8 mem q) ⊓ 8) := by
  refine of_xor (mod_ctz64 _ ?_ (by omega)) inf_le_right
  unfold firstDiffByte64
  omega

end SameBytes

theorem ctz64_le (w : Nat) : ctz64 w ≤ 64 := by
  unfold ctz64
  cases hfind : (List.range 64).find? w.testBit with
  | none => exact le_rfl
  | some k => exact (List.mem_range.mp (List.mem_of_find?_eq_some hfind)).le

theorem firstDiffByte64_le (w : Nat) : firstDiffByte64 w ≤ 8 := by
  have := ctz64_le w
  unfold firstDiffByte64
  omega

/-- A difference outside the first `n` bytes. -/
theorem le_firstDiffByte64 {w n : Nat} (h : w &&& firstBytesMask64 n = 0) (hn : n ≤ 8) :
    n ≤ firstDiffByte64 w := by
  rw [firstBytesMask64_eq hn, Nat.and_two_pow_sub_one_eq_mod] at h
  have := le_ctz64 h (by omega)
  unfold firstDiffByte64
  omega

end ZlibNg
