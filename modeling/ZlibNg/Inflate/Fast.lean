import ZlibNg.Inflate.Cases

/-! `inflate_fast` and `inflate_fast_safe`: one template, with a 64-bit accumulator filled eight
bytes at a time. -/
namespace ZlibNg

/-- Append `len` bytes from distance `dist` back, byte by byte; `out` is newest first. -/
def copyMatch (dist : Nat) : Nat → List UInt8 → List UInt8
  | 0, out => out
  | len + 1, out => copyMatch dist len (out.getD (dist - 1) 0 :: out)

/-- Append `len` bytes of a window from index `from_` on; the window may depend on the output. -/
def copyWindow (window : List UInt8 → Nat → UInt8) : Nat → Nat → List UInt8 → List UInt8
  | _, 0, out => out
  | from_, len + 1, out => copyWindow window (from_ + 1) len (window out from_ :: out)

def inflateFastMinHave : Nat := 15
def inflateFastMinLeft : Nat := 260
def inflateFastMinSafe : Nat := 3
def maxDistExtraBits : Nat := 13

/-- `EXTRA_BITS`. -/
def extraBits (old : Nat) (here : Code) (op : Nat) : Nat := (old % 2 ^ here.bits) >>> (op &&& maxBits)

/-- The local variables; `room` is `safe - out`, and `loads` records where eight bytes were
read. -/
structure FastRegs where
  in_ : Int
  hold : Nat
  bits : Nat
  out : List UInt8
  room : Nat
  st : InflateState
  loads : List Int

/-- What does not change during a call. -/
structure FastEnv where
  mem : Int → UInt8
  safeMode : Bool
  /-- `last`: enough input while `in < last`. -/
  last : Int
  /-- `inflate`'s initial `avail_out`; `start - room` bytes lie between `beg` and `out`. -/
  start : Nat
  window : List UInt8 → Nat → UInt8

namespace FastRegs

/-- `BITS`. -/
def bitsN (r : FastRegs) (n : Nat) : Nat := r.hold % 2 ^ n

/-- `DROPBITS`. -/
def dropBits (r : FastRegs) (n : Nat) : FastRegs :=
  { r with hold := r.hold >>> n, bits := r.bits - n }

/-- `load_64_bits`, without the shift. -/
def load64 (mem : Int → UInt8) (p : Int) : Nat := leNat (bytesAt mem p 8)

/-- `REFILL`. -/
def refill (e : FastEnv) (r : FastRegs) : FastRegs :=
  { r with
    hold := r.hold ||| load64 e.mem r.in_ <<< r.bits % 2 ^ 64
    in_ := r.in_ + ((63 ^^^ r.bits) >>> 3 : Nat)
    bits := r.bits ||| 56
    loads := r.in_ :: r.loads }

/-- `*out++ = b`. -/
def put (r : FastRegs) (b : UInt8) : FastRegs :=
  { r with out := b :: r.out, room := r.room - 1 }

def setBad (r : FastRegs) (errmsg : String) : FastRegs := { r with st := r.st.setBad errmsg }

/-- Copy up to `op` bytes from the window, and what is still needed from the output. -/
def copyRest (e : FastEnv) (dist op from_ len : Nat) (out : List UInt8) : List UInt8 :=
  if op < len then copyMatch dist (len - op) (copyWindow e.window from_ op out)
  else copyWindow e.window from_ len out

/-- Copy a match from the window, the output or both. -/
def copy (e : FastEnv) (r : FastRegs) (dist len : Nat) : FastRegs :=
  let op := e.start - r.room
  let out :=
    if op < dist then
      let op := dist - op
      if r.st.wnext = 0 then copyRest e dist op (r.st.wsize - op) len r.out
      else if op ≤ r.st.wnext then copyRest e dist op (r.st.wnext - op) len r.out
      else
        let op := op - r.st.wnext
        if op < len then
          copyRest e dist r.st.wnext 0 (len - op) (copyWindow e.window (r.st.wsize - op) op r.out)
        else copyRest e dist op (r.st.wsize - op) len r.out
    else copyMatch dist len r.out
  { r with out := out, room := r.room - len }

/-- The result of an iteration: go on with the loop condition, or break. -/
inductive Iter
  | next (r : FastRegs)
  | stop (r : FastRegs)

/-- A match with its distance: hand it over when space is short, or check and copy it. -/
def matchTo (e : FastEnv) (len dist : Nat) (r : FastRegs) : Iter :=
  if e.safeMode ∧ r.room < len then
    .stop { r with st := { r.st with mode := .match_, length := len, was := len, offset := dist } }
  else if r.st.whave + (e.start - r.room) < dist then
    .stop (r.setBad "invalid distance too far back")
  else .next (r.copy e dist len)

/-- From `dodist` on; second level codes come back to it. -/
def dodist (e : FastEnv) (len : Nat) : Nat → Code → FastRegs → Iter
  | 0, _, r => .stop r
  | fuel + 1, here, r =>
    let old := r.hold
    let r := r.dropBits here.bits
    let op := here.op
    if op &&& 16 ≠ 0 then matchTo e len (here.val + extraBits old here op) r
    else if op &&& 64 = 0 then
      dodist e len fuel (r.st.distcode (here.val + r.bitsN op)) r
    else .stop (r.setBad "invalid distance code")

/-- An entry that is no literal, its bits dropped; `old` is the accumulator before. -/
def doop (e : FastEnv) (old : Nat) (here : Code) (r : FastRegs)
    (dolen : Code → FastRegs → Iter) : Iter :=
  let op := here.op
  if op &&& 16 ≠ 0 then
    let len := here.val + extraBits old here op
    let here := r.st.distcode (r.hold % 2 ^ r.st.distbits)
    let r := if r.bits < maxBits + maxDistExtraBits + maxLenRootBits then r.refill e else r
    dodist e len 64 here r
  else if op &&& 64 = 0 then dolen (r.st.lencode (here.val + r.bitsN op)) r
  else if op &&& 32 ≠ 0 then .stop { r with st := { r.st with mode := .type } }
  else .stop (r.setBad "invalid literal/length code")

/-- From `dolen` on. -/
def dolen (e : FastEnv) : Nat → Code → FastRegs → Iter
  | 0, _, r => .stop r
  | fuel + 1, here, r =>
    let old := r.hold
    let r := r.dropBits here.bits
    if here.op = 0 then .next (r.put (UInt8.ofNat here.val))
    else doop e old here r (dolen e fuel)

/-- The body of the loop: up to two literals, then a code of any kind. -/
def iteration (e : FastEnv) (r : FastRegs) : Iter :=
  let here := r.st.lencode (r.hold % 2 ^ r.st.lenbits)
  let r := r.refill e
  let old := r.hold
  let r := r.dropBits here.bits
  if here.op = 0 then
    let r := r.put (UInt8.ofNat here.val)
    let here := r.st.lencode (r.hold % 2 ^ r.st.lenbits)
    let old := r.hold
    let r := r.dropBits here.bits
    if here.op = 0 then
      let r := r.put (UInt8.ofNat here.val)
      dolen e 64 (r.st.lencode (r.hold % 2 ^ r.st.lenbits)) r
    else doop e old here r (dolen e 64)
  else doop e old here r (dolen e 64)

/-- The loop, while there is enough input and output space. -/
def loop (e : FastEnv) (r : FastRegs) : Nat → FastRegs
  | 0 => r
  | fuel + 1 =>
    match r.iteration e with
    | .stop r => r
    | .next r =>
      -- `out < end`
      if r.in_ < e.last ∧ (if e.safeMode then inflateFastMinSafe else inflateFastMinLeft) ≤ r.room then
        loop e r fuel
      else r

end FastRegs

/-- What `INFLATE_FAST` leaves in the stream. -/
structure FastResult where
  nextIn : Int
  availIn : Int
  hold : Nat
  bits : Nat
  out : List UInt8
  availOut : Nat
  st : InflateState
  loads : List Int

/-- Return unused bytes, and update the stream. -/
def FastRegs.finish (e : FastEnv) (r : FastRegs) : FastResult :=
  let len := r.bits >>> 3
  let in_ := r.in_ - len
  let bits := r.bits - len <<< 3
  { nextIn := in_
    availIn := if in_ < e.last then (inflateFastMinHave - 1 : Nat) + (e.last - in_)
      else (inflateFastMinHave - 1 : Nat) - (in_ - e.last)
    hold := r.hold % 2 ^ bits % 2 ^ 32
    bits := bits
    out := r.out
    availOut := r.room
    st := r.st
    loads := r.loads }

/-- `INFLATE_FAST`. -/
def inflateFast (safeMode : Bool) (mem : Int → UInt8) (window : List UInt8 → Nat → UInt8)
    (start : Nat) (st : InflateState) (nextIn : Int) (availIn : Nat) (out : List UInt8)
    (availOut hold bits : Nat) : FastResult :=
  let e : FastEnv := {
    mem, safeMode, start, window
    last := nextIn + ((availIn : Int) - (inflateFastMinHave - 1 : Nat)) }
  let r : FastRegs := { in_ := nextIn, hold, bits, out, room := availOut, st, loads := [] }
  ((r.refill e).loop e (8 * availIn + bits + 1)).finish e

end ZlibNg
