import ZlibNg.Inflate.Inflate

/-! Initialisation of an inflate stream, and bits put in front of its input. -/
namespace ZlibNg

/-- The state in memory that the allocator has cleared. -/
def InflateState.zeroed : InflateState where
  mode := .head
  last := false
  wrap := 0
  havedict := false
  flags := 0
  was := 0
  check := 0
  total := 0
  head := none
  back := 0
  wbits := 0
  wsize := 0
  whave := 0
  wnext := 0
  window := fun _ => 0
  lenbits := 0
  lencode := fun _ => default
  distbits := 0
  distcode := fun _ => default
  length := 0
  offset := 0
  extra := 0
  ncode := 0
  nlen := 0
  ndist := 0
  have_ := 0
  lens := fun _ => 0
  msg := none
  adler := 0

/-- The part of `inflateResetKeep` that concerns the state; the tables keep what memory holds. -/
def InflateState.resetKeep (s : InflateState) : InflateState :=
  { s with
    total := 0
    msg := none
    adler := if s.wrap ≠ 0 then s.wrap &&& 1 else s.adler
    mode := .head
    check := adler32InitialValue
    last := false
    havedict := false
    flags := 0xffffffff
    head := none
    back := -1 }

/-- The part of `inflateReset` that concerns the state. -/
def InflateState.reset (s : InflateState) : InflateState :=
  { s with wsize := 0, whave := 0, wnext := 0 }.resetKeep

/-- The wrap request and the window bits in the parameter of `inflateReset2`; nothing when it
returns `Z_STREAM_ERROR`. -/
def wrapRequest (windowBits : Int) : Option (Nat × Nat) :=
  let (wrap, bits) : Nat × Int :=
    if windowBits < 0 then (0, -windowBits)
    else ((windowBits / 16).toNat + 5, if windowBits < 48 then windowBits % 16 else windowBits)
  if windowBits < -maxWbits ∨ (bits ≠ 0 ∧ (bits < 8 ∨ (maxWbits : Int) < bits)) then none
  else some (wrap, bits.toNat)

/-- The low `bits` bits of a value. -/
def primeValue (bits : Nat) (value : Int) : Nat := (value % (2 ^ bits : Nat)).toNat

theorem primeValue_lt (bits : Nat) (value : Int) : primeValue bits value < 2 ^ bits := by
  have hpos := Nat.two_pow_pos bits
  have h := Int.emod_lt_of_pos value (show (0 : Int) < (2 ^ bits : Nat) by exact_mod_cast hpos)
  have h0 := Int.emod_nonneg value (show ((2 ^ bits : Nat) : Int) ≠ 0 by exact_mod_cast hpos.ne')
  unfold primeValue
  omega

namespace InflateStream

/-- `inflateInit2`, on memory that holds `st`. -/
def inflateInit2 (st : InflateState) (windowBits : Int) : Option InflateStream :=
  (wrapRequest windowBits).map fun (wrap, wbits) =>
    { nextIn := 0, availIn := 0, availOut := 0, totalIn := 0, totalOut := 0, dataType := 0
      st := { st with wrap := wrap, wbits := wbits }.reset
      hold := 0, bits := 0, lt := Nat.one_pos }

/-- `inflatePrime`; nothing when it returns `Z_STREAM_ERROR`. -/
def inflatePrime (strm : InflateStream) (bits : Int) (value : Int) : Option InflateStream :=
  if bits = 0 then some strm
  else if bits < 0 then some { strm with hold := 0, bits := 0, lt := Nat.one_pos }
  else if 16 < bits ∨ 32 < strm.bits + bits.toNat then none
  else
    some { strm with
      hold := strm.hold + primeValue bits.toNat value <<< strm.bits
      bits := strm.bits + bits.toNat
      lt := by
        rw [Nat.shiftLeft_eq, Nat.mul_comm]
        exact (BitStream.append ⟨strm.hold, strm.bits, strm.lt⟩
          ⟨_, bits.toNat, primeValue_lt bits.toNat value⟩).lt }

end InflateStream
end ZlibNg
