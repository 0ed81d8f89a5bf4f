import ZlibNg.Inflate.AccountSteps

/-! The functions that may be called between calls of `inflate`, and runs of such calls. -/
namespace ZlibNg

/-- `syncsearch`: the number of pattern bytes found in order, and the bytes looked at. -/
def syncsearch (got : Nat) : List UInt8 → Nat × Nat
  | [] => (got, 0)
  | b :: bs =>
    if got < 4 then
      let got' := if b = (if got < 2 then 0 else 0xff) then got + 1
        else if b ≠ 0 then 0
        else 4 - got
      let (got', next) := syncsearch got' bs
      (got', next + 1)
    else (got, 0)

namespace InflateStream

/-- `inflateReset`. -/
def inflateReset (strm : InflateStream) : InflateStream :=
  { strm with
    totalIn := 0, totalOut := 0, dataType := 0
    st := strm.st.reset
    hold := 0, bits := 0, lt := Nat.one_pos }

/-- `inflateGetDictionary`: the bytes copied, and the length stored in `dictLength`. -/
def inflateGetDictionary (strm : InflateStream) : List UInt8 × Nat :=
  let s := strm.st
  (if s.whave ≠ 0 then
    ((List.range (s.whave - s.wnext)).map fun i => s.window (s.wnext + i)) ++
      (List.range s.wnext).map s.window
  else [], s.whave)

/-- `inflateSetDictionary`. -/
def inflateSetDictionary (strm : InflateStream) (dictionary : List UInt8) : Ret × InflateStream :=
  if strm.st.wrap ≠ 0 ∧ strm.st.mode ≠ .dict then (.streamError, strm)
  else if strm.st.mode = .dict ∧ adler32 adler32InitialValue dictionary ≠ strm.st.check then
    (.dataError, strm)
  else (.ok, { strm with st := { strm.st.updatewindow dictionary false with havedict := true } })

/-- The start of a search, in the bit buffer. -/
def syncStart (strm : InflateStream) : InflateStream :=
  if strm.st.mode = .sync then strm
  else
    let buf := leBytes (strm.hold >>> (strm.bits % 8)) (strm.bits / 8)
    { strm with
      st := { strm.st with mode := .sync, have_ := (syncsearch 0 buf).1 }
      hold := 0, bits := 0, lt := Nat.one_pos }

/-- The search in the available input. -/
def syncInput (mem : Int → UInt8) (strm : InflateStream) : InflateStream :=
  let (got, len) := syncsearch strm.st.have_ (bytesAt mem strm.nextIn strm.availIn)
  { strm with
    st := { strm.st with have_ := got }
    availIn := strm.availIn - len
    nextIn := strm.nextIn + len
    totalIn := strm.totalIn + len }

/-- Set up to restart `inflate` on a new block. -/
def syncRestart (strm : InflateStream) : InflateStream :=
  let s : InflateState :=
    { strm.st with
      wrap := if strm.st.flags = 0xffffffff then 0 else strm.st.wrap ^^^ (strm.st.wrap &&& 4) }
  { { strm with st := s }.inflateReset with
    totalIn := strm.totalIn
    totalOut := strm.totalOut
    st := { s.reset with flags := s.flags, mode := .type } }

/-- `inflateSync`. -/
def inflateSync (mem : Int → UInt8) (strm : InflateStream) : Ret × InflateStream :=
  if strm.availIn = 0 ∧ strm.bits < 8 then (.bufError, strm)
  else
    let strm := strm.syncStart.syncInput mem
    if strm.st.have_ ≠ 4 then (.dataError, strm) else (.ok, strm.syncRestart)

end InflateStream

/-- A stream in use: the bytes it has taken, its output, newest first, and what the distances of
the data may refer to, newest first. -/
structure Session where
  strm : InflateStream
  taken : Int
  out : List UInt8
  hist : List UInt8

/-- A call, with the buffers that are given to it. -/
inductive Call
  | inflate (mem : Int → UInt8) (nextIn : Int) (availIn availOut : Nat) (flush : Flush)
  | setDictionary (dictionary : List UInt8)
  | sync (mem : Int → UInt8) (nextIn : Int) (availIn : Nat)
  | reset

namespace Session

/-- The stream with new buffers. -/
def feed (s : Session) (nextIn : Int) (availIn availOut : Nat) : InflateStream :=
  { s.strm with nextIn := nextIn, availIn := availIn, availOut := availOut }

def call (s : Session) : Call → Option (Ret × Session)
  | .inflate mem nextIn availIn availOut flush =>
    ((s.feed nextIn availIn availOut).inflate mem flush).map fun (ret, strm, bytes) => (ret,
      { strm := strm
        taken := s.taken + (strm.nextIn - nextIn)
        out := bytes.reverse ++ s.out
        hist := bytes.reverse ++ s.hist })
  | .setDictionary dictionary =>
    let (ret, strm) := s.strm.inflateSetDictionary dictionary
    some (ret, { s with
      strm := strm
      hist := if ret = .ok then dictionary.reverse ++ s.hist else s.hist })
  | .sync mem nextIn availIn =>
    let (ret, strm) := (s.feed nextIn availIn s.strm.availOut).inflateSync mem
    some (ret, { s with
      strm := strm
      taken := s.taken + (strm.nextIn - nextIn)
      hist := if ret = .ok then [] else s.hist })
  | .reset => some (.ok, { strm := s.strm.inflateReset, taken := 0, out := [], hist := [] })

/-- A stream that has just been initialised, on memory that holds `st`. -/
def start (st : InflateState) (windowBits : Int) : Option Session :=
  (InflateStream.inflateInit2 st windowBits).map fun strm =>
    { strm := strm, taken := 0, out := [], hist := [] }

/-- Runs of calls that `may` be made. -/
inductive Run (may : Session → Call → Prop) : Session → Prop
  | start {st : InflateState} {windowBits : Int} {s : Session}
      (h : start st windowBits = some s) : Run may s
  | call {s s' : Session} {c : Call} {ret : Ret} (hr : Run may s) (hc : may s c)
      (h : s.call c = some (ret, s')) : Run may s'

/-- Some bytes in memory, from address 0. -/
def memOf (bytes : List UInt8) : Int → UInt8 := fun i => bytes.getD i.toNat 0

/-- A stream initialised in cleared memory. -/
def fresh (windowBits : Int) (h : (start .zeroed windowBits).isSome = true) : Session :=
  (start .zeroed windowBits).get h

theorem fresh_run {may : Session → Call → Prop} {windowBits : Int}
    (h : (start .zeroed windowBits).isSome = true) : Run may (fresh windowBits h) :=
  .start (Option.some_get h).symm

end Session
end ZlibNg
