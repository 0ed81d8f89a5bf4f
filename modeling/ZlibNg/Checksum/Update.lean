import ZlibNg.Bits.Stream

/-! The running checks, byte by byte. -/
namespace ZlibNg

def adlerBase : Nat := 65521
def adler32InitialValue : Nat := 1
def crc32InitialValue : Nat := 0

/-- `ADLER_DO1` with the reduction. -/
def adlerDo1 (adler : Nat) (b : UInt8) : Nat :=
  let sum1 := (adler % 2 ^ 16 + b.toNat) % adlerBase
  let sum2 := (adler / 2 ^ 16 + sum1) % adlerBase
  sum1 + 2 ^ 16 * sum2

/-- `adler32`, reduced after each byte. -/
def adler32 (adler : Nat) (buf : List UInt8) : Nat := buf.foldl adlerDo1 adler

/-- One bit of the remainder by the reflected polynomial. -/
def crcShift (c : Nat) : Nat := if c % 2 = 1 then (c / 2) ^^^ 0xedb88320 else c / 2

/-- `crc_table[n]`. -/
def crcTable (n : Nat) : Nat :=
  crcShift (crcShift (crcShift (crcShift (crcShift (crcShift (crcShift (crcShift n)))))))

/-- `CRC_DO1`. -/
def crcDo1 (c : Nat) (b : UInt8) : Nat := crcTable ((c ^^^ b.toNat) % 256) ^^^ (c >>> 8)

/-- `crc32`: the register is inverted before and after. -/
def crc32 (crc : Nat) (buf : List UInt8) : Nat :=
  buf.foldl crcDo1 (crc ^^^ 0xffffffff) ^^^ 0xffffffff

theorem adler32_append (adler : Nat) (xs ys : List UInt8) :
    adler32 adler (xs ++ ys) = adler32 (adler32 adler xs) ys := by
  simp [adler32]

@[simp] theorem adler32_nil (adler : Nat) : adler32 adler [] = adler := rfl

theorem crc32_append (crc : Nat) (xs ys : List UInt8) :
    crc32 crc (xs ++ ys) = crc32 (crc32 crc xs) ys := by
  simp [crc32]

@[simp] theorem crc32_nil (crc : Nat) : crc32 crc [] = crc := by
  simp [crc32]

/-- The low `n` bytes of a word, least significant first. -/
def leBytes (word : Nat) : Nat → List UInt8
  | 0 => []
  | n + 1 => UInt8.ofNat word :: leBytes (word >>> 8) n

/-- `ZSWAP32`. -/
def zswap32 (q : Nat) : Nat :=
  (q >>> 24) % 256 + ((q >>> 16) % 256) <<< 8 + ((q >>> 8) % 256) <<< 16 + (q % 256) <<< 24

end ZlibNg
