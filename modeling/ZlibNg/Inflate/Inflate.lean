import ZlibNg.Inflate.Fast

/-! `inflate`: the switch, the way out through `inf_leave`, and the sliding window. -/
namespace ZlibNg

/-- Store bytes in a buffer from index `pos` on. -/
def writeBytes (buf : Nat → UInt8) (pos : Nat) (bytes : List UInt8) : Nat → UInt8 := fun i =>
  if pos ≤ i ∧ i < pos + bytes.length then bytes.getD (i - pos) 0 else buf i

namespace InflateState

/-- `updatewindow`; `data` is what lies before `end`, oldest first. -/
def updatewindow (s : InflateState) (data : List UInt8) (cksum : Bool) : InflateState :=
  let s := if s.wsize = 0 then { s with wsize := 2 ^ s.wbits } else s
  let len := data.length
  if s.wsize ≤ len then
    let old := data.take (len - s.wsize)
    let new := data.drop (len - s.wsize)
    let s := if cksum then
        (if s.wsize < len then s.infChksum old else s).infChksumCpy new
      else s
    { s with window := writeBytes s.window 0 new, wnext := 0, whave := s.wsize }
  else
    let dist := min (s.wsize - s.wnext) len
    let s := if cksum then s.infChksumCpy (data.take dist) else s
    let s := { s with window := writeBytes s.window s.wnext (data.take dist) }
    let rest := data.drop dist
    if len - dist ≠ 0 then
      let s := if cksum then s.infChksumCpy rest else s
      { s with window := writeBytes s.window 0 rest, wnext := len - dist, whave := s.wsize }
    else
      { s with
        wnext := if s.wnext + dist = s.wsize then 0 else s.wnext + dist
        whave := if s.whave < s.wsize then s.whave + dist else s.whave }

/-- Save bytes of the extra field. The place is an `unsigned`, which wraps where a header is set again
in the middle of the field. -/
def saveExtra (s : InflateState) (bytes : List UInt8) : InflateState :=
  s.withHead fun head =>
    match head.extra with
    | none => head
    | some buf =>
      let len := (head.extraLen + 2 ^ 32 - s.length) % 2 ^ 32
      if len < head.extraMax then
        { head with extra := some (writeBytes buf len
            (bytes.take (if (len + bytes.length) % 2 ^ 32 > head.extraMax then head.extraMax - len
              else bytes.length))) }
      else head

/-- Save a byte of the name. -/
def saveName (s : InflateState) (b : UInt8) : InflateState :=
  match s.head with
  | none => s
  | some head =>
    match head.name with
    | none => s
    | some buf =>
      if s.length < head.nameMax then
        { s with
          head := some { head with name := some (Function.update buf s.length b) }
          length := s.length + 1 }
      else s

/-- Save a byte of the comment. -/
def saveComment (s : InflateState) (b : UInt8) : InflateState :=
  match s.head with
  | none => s
  | some head =>
    match head.comment with
    | none => s
    | some buf =>
      if s.length < head.commMax then
        { s with
          head := some { head with comment := some (Function.update buf s.length b) }
          length := s.length + 1 }
      else s

end InflateState

/-- The bytes up to the first zero. -/
def takeString : List UInt8 → List UInt8
  | [] => []
  | b :: bs => if b = 0 then [b] else b :: takeString bs

/-- Take `n` bytes of input directly. -/
def BitReader.advance (r : BitReader) (n : Nat) : BitReader :=
  { r with next := r.next + n, have_ := r.have_ - n }

/-- `LOAD`, after `inflate_fast`. -/
def FastResult.acc (f : FastResult) (mem : Int → UInt8) : BitReader where
  mem := mem
  next := f.nextIn
  have_ := f.availIn.toNat
  hold := f.hold % 2 ^ f.bits
  bits := f.bits
  lt := Nat.mod_lt _ (Nat.two_pow_pos _)

/-- The local variables of `inflate`; `out` is what this call has written, newest first, and
`mark` the variable `out` of the source. -/
structure Regs where
  st : InflateState
  acc : BitReader
  left : Nat
  out : List UInt8
  mark : Nat
  totalOut : Nat

/-- How a case ends: with `break`, with `goto inf_leave`, or with `return`. -/
inductive Ctl
  | loop (r : Regs)
  | leave (ret : Ret) (r : Regs)
  | ret (ret : Ret) (r : Regs)

namespace Regs

/-- Run the program of a case; `Z_TREES` leaves after a block header. -/
def runCase (flush : Flush) (r : Regs) (p : CaseProg) : Ctl :=
  match p.run r.acc with
  | .leave acc => .leave .ok { r with acc := acc }
  | .done st acc =>
    let r := { r with st := st, acc := acc }
    if flush = .trees ∧ (st.mode = .len_ ∨ st.mode = .copy_) then .leave .ok r else .loop r

def caseExtra (r : Regs) : Ctl :=
  if r.st.flags &&& 0x0400 ≠ 0 then
    let copy := min r.st.length r.acc.have_
    let bytes := bytesAt r.acc.mem r.acc.next copy
    let r := if copy ≠ 0 then
        let st := (r.st.saveExtra bytes).headerCheck bytes
        { r with st := { st with length := st.length - copy }, acc := r.acc.advance copy }
      else r
    if r.st.length ≠ 0 then .leave .ok r
    else .loop { r with st := { r.st with length := 0, mode := .name } }
  else .loop { r with st := { r.st with length := 0, mode := .name } }

/-- The scan for the end of a string, saving its bytes. -/
def scanString (r : Regs) (save : InflateState → UInt8 → InflateState)
    (next : InflateState → InflateState) : Ctl :=
  if r.acc.have_ = 0 then .leave .ok r
  else
    let bytes := takeString (bytesAt r.acc.mem r.acc.next r.acc.have_)
    let r := { r with
      st := (bytes.foldl save r.st).headerCheck bytes
      acc := r.acc.advance bytes.length }
    if bytes.getLastD 0 ≠ 0 then .leave .ok r else .loop { r with st := next r.st }

def caseName (r : Regs) : Ctl :=
  let next := fun (s : InflateState) => { s with length := 0, mode := .comment }
  if r.st.flags &&& 0x0800 ≠ 0 then r.scanString InflateState.saveName next
  else .loop { r with st := next (r.st.withHead fun head => { head with name := none }) }

def caseComment (r : Regs) : Ctl :=
  let next := fun (s : InflateState) => { s with mode := .hcrc }
  if r.st.flags &&& 0x1000 ≠ 0 then r.scanString InflateState.saveComment next
  else .loop { r with st := next (r.st.withHead fun head => { head with comment := none }) }

def caseDict (r : Regs) : Ctl :=
  if r.st.havedict then
    .loop { r with st := { r.st with
      adler := adler32InitialValue, check := adler32InitialValue, mode := .type } }
  else .ret .needDict r

/-- Copy a stored block from input to output. -/
def caseCopy (r : Regs) : Ctl :=
  if r.st.length ≠ 0 then
    let copy := min (min r.st.length r.acc.have_) r.left
    if copy = 0 then .leave .ok r
    else .loop { r with
      st := { r.st with length := r.st.length - copy }
      acc := r.acc.advance copy
      left := r.left - copy
      out := (bytesAt r.acc.mem r.acc.next copy).reverse ++ r.out }
  else .loop { r with st := { r.st with mode := .type } }

/-- Write `copy` bytes of a match. -/
def matched (r : Regs) (copy : Nat) (out : List UInt8) : Ctl :=
  let length := r.st.length - copy
  .loop { r with
    st := { r.st with length := length, mode := if length = 0 then .len else r.st.mode }
    left := r.left - copy
    out := out }

/-- Copy a match from the window or from the output. -/
def caseMatch (r : Regs) : Ctl :=
  if r.left = 0 then .leave .ok r
  else
    let copy := r.mark - r.left
    if copy < r.st.offset then
      let copy := r.st.offset - copy
      if r.st.whave < copy then .loop { r with st := r.st.setBad "invalid distance too far back" }
      else
        let window := fun (_ : List UInt8) i => r.st.window i
        if r.st.wnext < copy then
          let copy := copy - r.st.wnext
          let from_ := r.st.wsize - copy
          let copy := min (min copy r.st.length) r.left
          r.matched copy (copyWindow window from_ copy r.out)
        else
          let from_ := r.st.wnext - copy
          let copy := min (min copy r.st.length) r.left
          r.matched copy (copyWindow window from_ copy r.out)
    else
      let copy := min r.st.length r.left
      r.matched copy (copyMatch r.st.offset copy r.out)

def caseLit (r : Regs) : Ctl :=
  if r.left = 0 then .leave .ok r
  else .loop { r with
    st := { r.st with mode := .len }
    left := r.left - 1
    out := UInt8.ofNat r.st.length :: r.out }

/-- The output not yet counted and hashed, oldest first. -/
def pending (r : Regs) : List UInt8 := (r.out.take (r.mark - r.left)).reverse

/-- Count and hash the output so far. -/
def settle (r : Regs) : InflateState :=
  let out := r.mark - r.left
  let s : InflateState := { r.st with total := r.st.total + out }
  if s.wrap &&& 4 ≠ 0 ∧ out ≠ 0 then s.infChksum r.pending else s

/-- `CHECK`: the output is accounted for once the check value is there. -/
def caseCheck (r : Regs) : Ctl :=
  match r.settle.caseCheck.run r.acc with
  | .leave acc => .leave .ok { r with acc := acc }
  | .done st acc =>
    if r.st.wrap ≠ 0 then
      .loop { r with
        st := st, acc := acc, totalOut := r.totalOut + (r.mark - r.left), mark := r.left }
    else .loop { r with st := { r.st with mode := .length }, acc := acc }

/-- `LEN` with enough input and output: through `inflate_fast` or `inflate_fast_safe`. -/
def enterFast (r : Regs) : Ctl :=
  let f := inflateFast (decide (r.left < inflateFastMinLeft)) r.acc.mem
    (fun _ i => r.st.window i) r.mark r.st r.acc.next r.acc.have_ r.out r.left r.acc.hold r.acc.bits
  .loop { r with
    st := if f.st.mode = .type then { f.st with back := -1 } else f.st
    acc := f.acc r.acc.mem
    left := f.availOut
    out := f.out }

/-- `LEN`, without `inflate_fast`. -/
def caseLenSlow (flush : Flush) (r : Regs) : Ctl :=
  { r with st := { r.st with back := 0 } }.runCase flush r.st.caseLen

/-- One pass of the loop around the switch. -/
def step (flush : Flush) (r : Regs) : Ctl :=
  match r.st.mode with
  | .head => r.runCase flush r.st.caseHead
  | .flags => r.runCase flush r.st.caseFlags
  | .time => r.runCase flush r.st.caseTime
  | .os => r.runCase flush r.st.caseOs
  | .exlen => r.runCase flush r.st.caseExlen
  | .extra => r.caseExtra
  | .name => r.caseName
  | .comment => r.caseComment
  | .hcrc => r.runCase flush r.st.caseHcrc
  | .dictid => r.runCase flush r.st.caseDictid
  | .dict => r.caseDict
  | .type =>
    if flush = .block ∨ flush = .trees then .leave .ok r
    else r.runCase flush r.st.caseTypedo
  | .typedo => r.runCase flush r.st.caseTypedo
  | .stored =>
    { r with acc := r.acc.drop (r.acc.bits % 8) }.runCase flush r.st.caseStored
  | .copy_ => .loop { r with st := { r.st with mode := .copy } }
  | .copy => r.caseCopy
  | .table => r.runCase flush r.st.caseTable
  | .lenlens => r.runCase flush r.st.caseLenlens
  | .codelens => r.runCase flush r.st.caseCodelens
  | .len_ => .loop { r with st := { r.st with mode := .len } }
  | .len =>
    if inflateFastMinHave ≤ r.acc.have_ ∧ inflateFastMinSafe ≤ r.left then r.enterFast
    else r.caseLenSlow flush
  | .lenext => r.runCase flush r.st.caseLenext
  | .dist => r.runCase flush r.st.caseDist
  | .distext => r.runCase flush r.st.caseDistext
  | .match_ => r.caseMatch
  | .lit => r.caseLit
  | .check => r.caseCheck
  | .length => r.runCase flush r.st.caseLength
  | .done => .leave .streamEnd r
  | .bad => .leave .dataError r
  | .sync => .ret .streamError r

/-- The loop around the switch, left through `inf_leave` (`true`) or a `return`. -/
def loop (flush : Flush) : Nat → Regs → Option (Bool × Ret × Regs)
  | 0, _ => none
  | fuel + 1, r =>
    match r.step flush with
    | .loop r => loop flush fuel r
    | .leave ret r => some (true, ret, r)
    | .ret ret r => some (false, ret, r)

/-- Passes left for a mode when neither input nor output moves. -/
def rank : Mode → Nat
  | .head | .exlen => 12
  | .extra => 11
  | .name => 10
  | .comment => 9
  | .hcrc => 8
  | .copy_ | .lenlens | .lenext => 7
  | .copy | .codelens | .dist => 6
  | .type | .typedo | .len_ | .distext => 5
  | .check | .len | .match_ | .lit => 4
  | .length => 3
  | .dict => 6
  | .done | .bad | .sync => 0
  | .flags | .time | .os | .dictid | .stored | .table => 1

/-- A bound on the passes of the loop. -/
def measure (r : Regs) : Nat := 16 * (8 * r.acc.have_ + r.acc.bits + r.left) + rank r.st.mode

end Regs

/-- A stream between calls: `z_stream` with its inflate state. -/
structure InflateStream where
  nextIn : Int
  availIn : Nat
  availOut : Nat
  totalIn : Nat
  totalOut : Nat
  dataType : Nat
  st : InflateState
  hold : Nat
  bits : Nat
  lt : hold < 2 ^ bits

namespace InflateStream

/-- `LOAD`, at the start of a call. -/
def load (mem : Int → UInt8) (strm : InflateStream) : Regs :=
  { st := if strm.st.mode = .type then { strm.st with mode := .typedo } else strm.st
    acc := {
      mem := mem, next := strm.nextIn, have_ := strm.availIn
      hold := strm.hold, bits := strm.bits, lt := strm.lt }
    left := strm.availOut
    out := []
    mark := strm.availOut
    totalOut := strm.totalOut }

/-- `RESTORE`. -/
def restore (strm : InflateStream) (r : Regs) : InflateStream :=
  { strm with
    nextIn := r.acc.next
    availIn := r.acc.have_
    availOut := r.left
    totalOut := r.totalOut
    st := r.st
    hold := r.acc.hold
    bits := r.acc.bits
    lt := r.acc.lt }

/-- `inf_leave`. -/
def infLeave (flush : Flush) (strm : InflateStream) (ret : Ret) (r : Regs) : Ret × InflateStream :=
  let in_ := strm.availIn - r.acc.have_
  let out := r.mark - r.left
  let strm := strm.restore r
  let s : InflateState := strm.st
  let s : InflateState := if s.wsize ≠ 0 ∨ (r.mark ≠ r.left ∧ s.mode.index < Mode.bad.index ∧
        (s.mode.index < Mode.check.index ∨ flush ≠ .finish)) then
      s.updatewindow r.pending (s.wrap &&& 4 ≠ 0)
    else s
  let s : InflateState := { s with total := s.total + out }
  let strm := { strm with
    totalIn := strm.totalIn + in_
    totalOut := strm.totalOut + out
    dataType := strm.bits + (if s.last then 64 else 0) + (if s.mode = Mode.type then 128 else 0) +
      (if s.mode = Mode.len_ ∨ s.mode = Mode.copy_ then 256 else 0) }
  if ((in_ = 0 ∧ out = 0) ∨ flush = .finish) ∧ ret = .ok then
    let s := if s.wsize = 0 ∧ flush = .finish then s.infChksum r.pending else s
    (.bufError, { strm with st := s })
  else (ret, { strm with st := s })

/-- `inflate`: the return code, the stream, and the bytes written. -/
def inflate (mem : Int → UInt8) (strm : InflateStream) (flush : Flush) :
    Option (Ret × InflateStream × List UInt8) :=
  let r := strm.load mem
  (r.loop flush (r.measure + 1)).map fun
    | (true, ret, r) =>
      let (ret, strm) := strm.infLeave flush ret r
      (ret, strm, r.out.reverse)
    | (false, ret, r) => (ret, strm.restore r, r.out.reverse)

end InflateStream
end ZlibNg
