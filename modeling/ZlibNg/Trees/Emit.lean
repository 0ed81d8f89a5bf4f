import ZlibNg.Bits.Pieces

/-! The bit writer of trees_emit.h, and `zng_tr_flush_bits`. -/
namespace ZlibNg

/-- The bytes written to the pending buffer, oldest first, and the bits held. -/
structure BitWriter where
  pending : List UInt8
  biBuf : Nat
  biValid : Nat
  biUsed : Int

namespace BitWriter

/-- `put_byte`, `put_short`, `put_uint32` and `put_uint64`: the low `n` bytes of a word. -/
def put (n word : Nat) (s : BitWriter) : BitWriter :=
  { s with pending := s.pending ++ leBytes word n }

/-- Complete bytes of the bit buffer go out. -/
def spill (n : Nat) (s : BitWriter) : BitWriter :=
  { s.put n s.biBuf with biBuf := s.biBuf >>> (8 * n), biValid := s.biValid - 8 * n }

/-- `send_bits`. A word shifted by its whole width or more is undefined, here and below. -/
def sendBits (value length : Nat) (s : BitWriter) : Option BitWriter :=
  let val := value % 2 ^ 64
  let totalBits := s.biValid + length
  let s' := { s with biBuf := (s.biBuf ||| val <<< s.biValid) % 2 ^ 64 }
  if 64 ≤ s.biValid then none
  else if 64 ≤ totalBits then
    some { s'.put 8 s'.biBuf with
      biBuf := (val >>> 1) >>> (63 - s.biValid % 64)
      biValid := totalBits - 64 }
  else some { s' with biValid := totalBits }

/-- `send_bits_merge`. -/
def sendBitsMerge (s : BitWriter) (value length : Nat) : Option BitWriter :=
  if 64 ≤ s.biValid then none
  else some { s with
    biBuf := (s.biBuf ||| (value % 2 ^ 64) <<< s.biValid) % 2 ^ 64
    biValid := s.biValid + length }

/-- `send_bits_flush`: of the eight bytes stored, the complete ones are kept. -/
def sendBitsFlush (s : BitWriter) : Option BitWriter :=
  if 64 ≤ s.biValid / 8 * 8 then none
  else some { s with
    pending := s.pending ++ (leBytes s.biBuf 8).take (s.biValid / 8)
    biBuf := s.biBuf >>> (s.biValid / 8 * 8)
    biValid := s.biValid % 8 }

/-- `zng_tr_flush_bits`. -/
def trFlushBits (s : BitWriter) : BitWriter :=
  let s :=
    if 48 ≤ s.biValid then
      { ((s.put 4 s.biBuf).put 2 (s.biBuf >>> 32)) with
        biBuf := s.biBuf >>> 48, biValid := s.biValid - 48 }
    else if 32 ≤ s.biValid then s.spill 4
    else s
  let s := if 16 ≤ s.biValid then s.spill 2 else s
  if 8 ≤ s.biValid then s.spill 1 else s

/-- The bytes `bi_windup` writes, and `bi_valid` after them, an `int`. -/
def windupBytes (s : BitWriter) : List UInt8 × Int :=
  if 56 < s.biValid then (leBytes s.biBuf 8, s.biValid)
  else
    let (bytes₁, buf, valid) : List UInt8 × Nat × Int :=
      if 24 < s.biValid then (leBytes s.biBuf 4, s.biBuf >>> 32, (s.biValid : Int) - 32)
      else ([], s.biBuf, s.biValid)
    let (bytes₂, buf, valid) : List UInt8 × Nat × Int :=
      if 8 < valid then (leBytes buf 2, buf >>> 16, valid - 16) else ([], buf, valid)
    (bytes₁ ++ bytes₂ ++ if 0 < valid then leBytes buf 1 else [], valid)

/-- `bi_windup`. -/
def biWindup (s : BitWriter) : BitWriter :=
  { pending := s.pending ++ s.windupBytes.1
    biBuf := 0
    biValid := 0
    biUsed := (s.windupBytes.2 - 1) % 8 + 1 }

end BitWriter

/-- The calls on the bit writer; merges are followed by a flush. -/
inductive EmitCall
  | sendBits (value length : Nat)
  | mergeFlush (pieces : List (Nat × Nat))
  | flushBits
  | windup

namespace BitWriter

def call (s : BitWriter) : EmitCall → Option BitWriter
  | .sendBits value length => s.sendBits value length
  | .mergeFlush pieces => do
    let s ← pieces.foldlM (fun s p => s.sendBitsMerge p.1 p.2) s
    s.sendBitsFlush
  | .flushBits => some s.trFlushBits
  | .windup => some s.biWindup

/-- One call after the other. -/
def run (s : BitWriter) (calls : List EmitCall) : Option BitWriter := calls.foldlM call s

end BitWriter

end ZlibNg
