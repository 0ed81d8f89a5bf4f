import ZlibNg.Bits.Reverse
import ZlibNg.Inflate.Tree

/-! The code words of the trees, and the bits of a match: `gen_codes` and `zng_assemble_dist`. -/
namespace ZlibNg

/-- `bi_reverse`. -/
def biReverse (code len : Nat) : Nat := zngBitreverse16 code >>> (16 - len)

/-- `next_code`, before any code is assigned; a `uint16_t`. -/
def firstCode (blCount : Nat → Nat) : Nat → Nat
  | 0 => 0
  | bits + 1 => (firstCode blCount bits + blCount bits) * 2 % 2 ^ 16

/-- One turn of the loop over the symbols: the next codes, and the codes of the tree. -/
def genCode (lens : List Nat) (s : (Nat → Nat) × (Nat → Nat)) (n : Nat) : (Nat → Nat) × (Nat → Nat) :=
  let len := lens.getD n 0
  if len = 0 then s
  else (Function.update s.1 len ((s.1 len + 1) % 2 ^ 16),
    Function.update s.2 n (biReverse (s.1 len) len))

/-- `gen_codes`, for the lengths of the codes up to `max_code`. -/
def genCodes (lens : List Nat) (blCount : Nat → Nat) (code : Nat → Nat) : Nat → Nat :=
  ((List.range lens.length).foldl (genCode lens) (firstCode blCount, code)).2

/-- Runs of a table: so many times this value. -/
def runs (table : List (Nat × Nat)) : List Nat := table.flatMap fun r => List.replicate r.1 r.2

def zngLengthCode : List Nat :=
  runs [(1, 0), (1, 1), (1, 2), (1, 3), (1, 4), (1, 5), (1, 6), (1, 7), (2, 8), (2, 9), (2, 10),
    (2, 11), (4, 12), (4, 13), (4, 14), (4, 15), (8, 16), (8, 17), (8, 18), (8, 19), (16, 20),
    (16, 21), (16, 22), (16, 23), (32, 24), (32, 25), (32, 26), (31, 27), (1, 28)]

def zngDistCode : List Nat :=
  runs [(1, 0), (1, 1), (1, 2), (1, 3), (2, 4), (2, 5), (4, 6), (4, 7), (8, 8), (8, 9), (16, 10),
    (16, 11), (32, 12), (32, 13), (64, 14), (64, 15), (2, 0), (1, 16), (1, 17), (2, 18), (2, 19),
    (4, 20), (4, 21), (8, 22), (8, 23), (16, 24), (16, 25), (32, 26), (32, 27), (64, 28), (64, 29)]

/-- `d_code`. -/
def dCode (dist : Nat) : Nat :=
  if dist < 256 then zngDistCode.getD dist 0 else zngDistCode.getD (256 + dist >>> 7) 0

/-- `LMASK_EXTRA`. -/
def lmask (mask extra : Nat) : Nat := extra <<< 8 ||| mask

/-- `DMASK_EXTRA`. -/
def dmask (mask extra : Nat) : Nat := extra <<< 16 ||| mask

def lmaskExtra : List Nat :=
  [lmask 0 0, lmask 0 0, lmask 0 0, lmask 0 0, lmask 0 0, lmask 0 0, lmask 0 0, lmask 0 0,
   lmask 1 1, lmask 1 1, lmask 1 1, lmask 1 1, lmask 3 2, lmask 3 2, lmask 3 2, lmask 3 2,
   lmask 7 3, lmask 7 3, lmask 7 3, lmask 7 3, lmask 15 4, lmask 15 4, lmask 15 4, lmask 15 4,
   lmask 31 5, lmask 31 5, lmask 31 5, lmask 31 5, lmask 0 0]

def dmaskExtra : List Nat :=
  [dmask 0 0, dmask 0 0, dmask 0 0, dmask 0 0, dmask 1 1, dmask 1 1, dmask 3 2, dmask 3 2,
   dmask 7 3, dmask 7 3, dmask 15 4, dmask 15 4, dmask 31 5, dmask 31 5, dmask 63 6, dmask 63 6,
   dmask 127 7, dmask 127 7, dmask 255 8, dmask 255 8, dmask 511 9, dmask 511 9, dmask 1023 10,
   dmask 1023 10, dmask 2047 11, dmask 2047 11, dmask 4095 12, dmask 4095 12, dmask 8191 13,
   dmask 8191 13]

/-- The codes and the lengths of a tree. -/
structure CodeTree where
  code : Nat → Nat
  len : Nat → Nat

/-- A piece put above the bits assembled, in a 64-bit word. -/
def assemble (s : Nat × Nat) (value length : Nat) : Nat × Nat :=
  (s.1 ||| value <<< s.2 % 2 ^ 64, s.2 + length)

/-- `zng_assemble_dist`: the bits of a match and their number; `lc` is the match length less
three. -/
def assembleDist (ltree dtree : CodeTree) (lc dist : Nat) : Nat × Nat :=
  let code := zngLengthCode.getD lc 0
  let c := code + 256 + 1
  let bits := (ltree.code c, ltree.len c)
  let maskExt := lmaskExtra.getD code 0
  let bits := assemble bits (lc &&& maskExt) (maskExt >>> 8)
  let dist := dist - 1
  let code := dCode dist
  let bits := assemble bits (dtree.code code) (dtree.len code)
  let maskExt := dmaskExtra.getD code 0
  assemble bits (dist &&& maskExt) (maskExt >>> 16)

end ZlibNg
