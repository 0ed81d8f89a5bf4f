import ZlibNg.Bits.Lanes
import ZlibNg.Checksum.Update

/-! The word-parallel Adler-32 of adler32_p.h and adler32_c.c, over either meaning of the word
arithmetic. -/
namespace ZlibNg

def nmax : Nat := 5552
def adler32SwarMaxBytes : Nat := 23 * 8
def adler32SwarEvenMask : Nat := 0x00FF00FF00FF00FF
def adler32SwarHsum : Nat := 0x1000100010001

/-- `ALIGN_DOWN` to a multiple of eight. -/
def alignDown8 (value : Nat) : Nat := value / 8 * 8

/-- `NMAX_ALIGNED8`. -/
def nmaxAligned8 : Nat := alignDown8 nmax

/-- `ALIGN_DIFF(buf, 8)` for a pointer with the address `addr`. -/
def alignDiff8 (addr : Nat) : Nat := (8 - addr % 8) % 8

/-- `BYTE_ORDER`. -/
inductive ByteOrder where
  | littleEndian | bigEndian
  deriving DecidableEq, Repr

/-- The 64-bit word at a source pointer. -/
def ByteOrder.load64 (order : ByteOrder) (buf : List UInt8) : Nat :=
  match order with
  | .littleEndian => (buf.take 8).foldr (fun b v => b.toNat + 2 ^ 8 * v) 0
  | .bigEndian => (buf.take 8).foldl (fun v b => b.toNat + 2 ^ 8 * v) 0

/-- The weights of the even lanes, of the lanes that `ADLER32_SWAR_HSUM` is applied to once
more, and of the odd lanes. -/
def ByteOrder.evenWeights : ByteOrder → Nat
  | .littleEndian => 0x4000300020001
  | .bigEndian => 0x0000100020003

def ByteOrder.oddWeights : ByteOrder → Nat
  | .littleEndian => 0x3000200010000
  | .bigEndian => 0x1000200030004

/-- The component sums, the bytes stored to `dst`, and the source from its pointer on. -/
structure AdlerState where
  adler : Nat
  sum2 : Nat
  dst : List UInt8
  buf : List UInt8
  addr : Nat

section Code
variable (A : WordArith) (order : ByteOrder) (copy : Bool)

/-- `ADLER_DO1`. -/
def adlerDo (p : Nat × Nat) (b : UInt8) : Option (Nat × Nat) :=
  (A.word (p.1 + b.toNat)).bind fun sum1 =>
    (A.word (p.2 + sum1)).map fun sum2 => (sum1, sum2)

/-- Move both pointers over `n` bytes; with `COPY` the bytes are stored. -/
def AdlerState.move (n : Nat) (s : AdlerState) : AdlerState :=
  { s with
    dst := if copy then s.dst ++ s.buf.take n else s.dst
    buf := s.buf.drop n
    addr := s.addr + n }

/-- Copy `n` bytes and add them one by one: `ADLER_DO1`, `ADLER_DO2` and `ADLER_DO4`. -/
def AdlerState.doBytes (n : Nat) (s : AdlerState) : Option AdlerState :=
  ((s.buf.take n).foldlM (adlerDo A) (s.adler, s.sum2)).map fun p =>
    { s.move copy n with adler := p.1, sum2 := p.2 }

/-- The same if `c` holds. -/
def AdlerState.doBytesIf (c : Prop) [Decidable c] (n : Nat) (s : AdlerState) : Option AdlerState :=
  if c then s.doBytes A copy n else some s

/-- `while (len >= 4)`: four bytes at a time; what is left of `len`, and the state. -/
def AdlerState.doFours (len : Nat) (s : AdlerState) : Option (Nat × AdlerState) :=
  if 4 ≤ len then (s.doBytes A copy 4).bind (AdlerState.doFours (len - 4)) else some (len, s)

/-- `adler32_copy_align`. -/
def AdlerState.copyAlign (len : Nat) (s : AdlerState) : Option AdlerState := do
  let s ← s.doBytesIf A copy (len % 2 ≠ 0) 1
  let s ← s.doBytesIf A copy (len / 2 % 2 ≠ 0) 2
  let r ← s.doFours A copy len
  return r.2

/-- The sums of the even and of the odd bytes, and their prefix sums. -/
structure SwarSums where
  sumEven : Nat
  sumOdd : Nat
  prefixEven : Nat
  prefixOdd : Nat

/-- The sums after the word `v`. -/
def SwarSums.add (t : SwarSums) (v : Nat) : Option SwarSums := do
  let prefixEven ← A.addLanes 16 t.prefixEven t.sumEven
  let prefixOdd ← A.addLanes 16 t.prefixOdd t.sumOdd
  let sumEven ← A.addLanes 16 t.sumEven (v &&& adler32SwarEvenMask)
  let sumOdd ← A.addLanes 16 t.sumOdd ((v >>> 8) &&& adler32SwarEvenMask)
  return { sumEven, sumOdd, prefixEven, prefixOdd }

/-- `while (len >= 16)`: two words at a time. -/
def swarLoop (len : Nat) (t : SwarSums) (s : AdlerState) : Option (Nat × SwarSums × AdlerState) :=
  if 16 ≤ len then
    let v0 := order.load64 s.buf
    let v1 := order.load64 (s.buf.drop 8)
    (t.add A v0).bind fun t => (t.add A v1).bind fun t =>
      swarLoop (len - 16) t (s.move copy 16)
  else some (len, t, s)

/-- The remaining word, if present. -/
def swarRest (len : Nat) (t : SwarSums) (s : AdlerState) : Option (SwarSums × AdlerState) :=
  if 8 ≤ len then (t.add A (order.load64 s.buf)).map fun t => (t, s.move copy 8)
  else some (t, s)

/-- The horizontal sum of the prefix sums, widened to 32-bit pairs. -/
def SwarSums.prefixTotal (t : SwarSums) : Option Nat := do
  let peLo := t.prefixEven &&& 0xFFFF0000FFFF
  let peHi := (t.prefixEven >>> 16) &&& 0xFFFF0000FFFF
  let poLo := t.prefixOdd &&& 0xFFFF0000FFFF
  let poHi := (t.prefixOdd >>> 16) &&& 0xFFFF0000FFFF
  let p ← A.addLanes 32 peLo poLo
  let p ← A.addLanes 32 p peHi
  let p ← A.addLanes 32 p poHi
  A.topLane 32 p 0x800000008

/-- The weighted sums of the lanes; the lanes that hold the odd bytes of a big-endian word are
the even ones. -/
def SwarSums.weighted (t : SwarSums) : Option Nat := do
  let even ← A.topLane 16 t.sumEven order.evenWeights
  let once ← A.topLane 16
    (match order with | .littleEndian => t.sumOdd | .bigEndian => t.sumEven) adler32SwarHsum
  let odd ← A.topLane 16 t.sumOdd order.oddWeights
  let even ← A.word (2 * even)
  let sum ← A.word (even + once)
  let odd ← A.word (2 * odd)
  A.word (sum + odd)

/-- `adler32_swar`, for `len` a multiple of eight. -/
def AdlerState.swar (len : Nat) (s : AdlerState) : Option AdlerState := do
  let product ← A.word (s.adler * (len % 2 ^ 32))
  let sum2 ← A.word (s.sum2 + product)
  let (len, t, s) ← swarLoop A order copy len
    { sumEven := 0, sumOdd := 0, prefixEven := 0, prefixOdd := 0 } { s with sum2 := sum2 }
  let (t, s) ← swarRest A order copy len t s
  let total ← A.addLanes 16 t.sumEven t.sumOdd
  let sum ← A.topLane 16 total adler32SwarHsum
  let adler ← A.word (s.adler + sum)
  let prefixTotal ← t.prefixTotal A
  let sum2 ← A.word (s.sum2 + prefixTotal)
  let weighted ← t.weighted A order
  let sum2 ← A.word (sum2 + weighted)
  return { s with adler := adler, sum2 := sum2 }

/-- The next chunk of the word-parallel loop. -/
def swarChunk (len : Nat) : Nat := min (alignDown8 len) adler32SwarMaxBytes

/-- The words of `adler32_copy_tail`, while the source is aligned. -/
def AdlerState.tailWords (len : Nat) (s : AdlerState) : Option (Nat × AdlerState) :=
  if 8 ≤ len ∧ s.addr % 8 = 0 then
    (s.swar A order copy (swarChunk len)).bind (AdlerState.tailWords (len - swarChunk len))
  else some (len, s)
termination_by len
decreasing_by
  simp only [swarChunk, alignDown8, adler32SwarMaxBytes]
  omega

/-- `adler %= BASE` and `sum2 %= BASE`. -/
def AdlerState.rebase (s : AdlerState) : AdlerState :=
  { s with adler := s.adler % adlerBase, sum2 := s.sum2 % adlerBase }

/-- The bytes of `adler32_copy_tail`. -/
def AdlerState.tailBytes (len : Nat) (s : AdlerState) : Option AdlerState := do
  let (len, s) ← s.tailWords A order copy len
  let (len, s) ← s.doFours A copy len
  let s ← s.doBytesIf A copy (len / 2 % 2 ≠ 0) 2
  s.doBytesIf A copy (len % 2 ≠ 0) 1

/-- `adler32_copy_tail`: the checksum, and the bytes stored. -/
def AdlerState.copyTail (rebase : Bool) (len : Nat) (s : AdlerState) :
    Option (Nat × List UInt8) :=
  (if len ≠ 0 then s.tailBytes A order copy len else some s).map fun s =>
    let s := if rebase then s.rebase else s
    (s.adler ||| (s.sum2 <<< 16) % 2 ^ 32, s.dst)

/-- The word-parallel chunks of one block: `do .. while (n >= 8)`. -/
def AdlerState.block (n : Nat) (s : AdlerState) : Option AdlerState :=
  (s.swar A order false (swarChunk n)).bind fun s =>
    if 8 ≤ n - swarChunk n then AdlerState.block (n - swarChunk n) s else some s
termination_by n
decreasing_by
  simp only [swarChunk, alignDown8, adler32SwarMaxBytes] at *
  omega

/-- `while (len >= nmax)`: the first block may be shorter; `nmax` is never zero. -/
def AdlerState.blocks (nmax len : Nat) (s : AdlerState) : Option (Nat × AdlerState) :=
  if 0 < nmax ∧ nmax ≤ len then
    (s.block A order nmax).bind fun s => AdlerState.blocks nmaxAligned8 (len - nmax) s.rebase
  else some (len, s)
termination_by len

/-- The bytes before an aligned source, and the size of the first block after them. -/
def AdlerState.alignHead (diff : Nat) (s : AdlerState) : Option (Nat × AdlerState) :=
  if diff ≠ 0 then (s.copyAlign A false diff).map fun s => (alignDown8 (nmaxAligned8 - diff), s)
  else some (nmaxAligned8, s)

/-- `adler32_c`. -/
def adler32C (adler : UInt32) (addr : Nat) (buf : List UInt8) : Option Nat := do
  let len := buf.length
  let s : AdlerState :=
    { adler := adler.toNat % 2 ^ 16, sum2 := (adler.toNat >>> 16) % 2 ^ 16, dst := [], buf, addr }
  -- a single byte is a short length as well
  if len < 16 then (s.copyTail A order false true len).map Prod.fst
  else
    let diff := alignDiff8 addr
    let (nmax, s) ← s.alignHead A diff
    let (len, s) ← s.blocks A order nmax (len - diff)
    (s.copyTail A order false (len ≠ 0) len).map Prod.fst

/-- `adler32_copy_c`: the checksum, and what `memcpy` stores. -/
def adler32CopyC (adler : UInt32) (addr : Nat) (src : List UInt8) : Option (Nat × List UInt8) := do
  let adler ← adler32C A order adler addr src
  return (adler, src)

end Code
end ZlibNg
