import ZlibNg.Deflate.Stored
import ZlibNg.Deflate.WindowRun
import ZlibNg.Trees.Block

/-! `deflate` at level 0, with all the bytes it moves between the input, the window, the pending
buffer and the output. -/
namespace ZlibNg

/-- A stream at level 0: its header, pending buffer and output, its window and its bit buffer.
`finish` stands for `FINISH_STATE`. -/
structure StoredStream where
  head : HeaderState
  win : DeflateState
  biBuf : Nat
  biValid : Nat
  biUsed : Int
  finish : Bool
  totalIn : Nat

namespace StoredStream

/-- The bit writer, with no bytes written yet. -/
def writer (s : StoredStream) : BitWriter := ⟨[], s.biBuf, s.biValid, s.biUsed⟩

/-- The bytes of a bit writer go to the pending buffer. -/
def absorb (s : StoredStream) (w : BitWriter) : StoredStream :=
  { s with
    head := s.head.put w.pending
    biBuf := w.biBuf
    biValid := w.biValid
    biUsed := w.biUsed }

/-- A function of the bit writer. -/
def emit (s : StoredStream) (f : BitWriter → Option BitWriter) : Option StoredStream :=
  (f s.writer).map s.absorb

/-- `flush_pending`. -/
def flushPending (s : StoredStream) : StoredStream :=
  let s := s.absorb s.writer.trFlushBits
  { s with head := s.head.flushPending }

/-- The lengths of an empty stored block are replaced. -/
def setLen (len : Nat) (s : StoredStream) : StoredStream :=
  let head := { s.head with pending := s.head.pending - 4 }
  { s with head := (head.put (leBytes len 2)).put (leBytes (2 ^ 32 - 1 - len) 2) }

/-- What `read_buf` does with the bytes it reads, besides copying them. -/
def readBuf (bytes : List UInt8) (s : StoredStream) : StoredStream :=
  { s with
    head := { s.head with
      adler :=
        if s.win.wrap = 2 then crc32 s.head.adler bytes
        else if s.win.wrap = 1 then adler32 s.head.adler bytes
        else s.head.adler }
    totalIn := s.totalIn + bytes.length }

/-- Bytes are copied to `next_out`. -/
def write (bytes : List UInt8) (s : StoredStream) : StoredStream :=
  { s with head := { s.head with
      out := s.head.out ++ bytes
      availOut := s.head.availOut - bytes.length } }

/-- `block_start` moves on. -/
def passed (n : Nat) (s : StoredStream) : StoredStream :=
  { s with win := { s.win with blockStart := s.win.blockStart + n } }

/-- The bytes of the window that are not yet written. -/
def left (s : StoredStream) : Nat := (s.win.strstart - s.win.blockStart).toNat

/-- A stored block of `len` bytes goes from the window and the input to the output. -/
def copyBlock (len : Nat) (last : Bool) (s : StoredStream) (input : List UInt8) :
    Option (StoredStream × List UInt8) := do
  let s := ((← s.emit (BitWriter.storedBlock [] 0 last)).setLen len).flushPending
  let left := min s.left len
  let s := (s.write (readBytes s.win.window s.win.blockStart.toNat left)).passed left
  let bytes := input.take (len - left)
  some ((s.readBuf bytes).write bytes, input.drop (len - left))

/-- The loop that copies stored blocks to the output, each at least five bytes long. -/
def copyLoop (flush : Flush) (minBlock : Nat) :
    Nat → StoredStream → List UInt8 → Option (StoredStream × List UInt8 × Bool)
  | 0, _, _ => none
  | fuel + 1, s, input =>
    let len := min (min maxStored (s.left + input.length)) (s.head.availOut - storedHeader s.biValid)
    if s.head.availOut < storedHeader s.biValid then some (s, input, false)
    else if len < minBlock ∧
        ((len = 0 ∧ flush ≠ .finish) ∨ flush = .noFlush ∨ len ≠ s.left + input.length) then
      some (s, input, false)
    else do
      let last : Bool := flush = .finish ∧ len = s.left + input.length
      let (s, input) ← s.copyBlock len last input
      if last then some (s, input, true) else copyLoop flush minBlock fuel s input

/-- A stored block goes from the window to the pending buffer. -/
def storedPending (flush : Flush) (s : StoredStream) (input : List UInt8) :
    Option (BlockState × StoredStream) :=
  let have_ := min (s.head.pendingBufSize - storedHeader s.biValid) maxStored
  let left := s.left
  if min have_ s.win.wSize ≤ left ∨
      ((left ≠ 0 ∨ flush = .finish) ∧ flush ≠ .noFlush ∧ input = [] ∧ left ≤ have_) then do
    let len := min left have_
    let last : Bool := flush = .finish ∧ input = [] ∧ len = left
    let s ← s.emit
      (BitWriter.storedBlock (readBytes s.win.window s.win.blockStart.toNat len) len last)
    let s := (s.passed len).flushPending
    some (if last then (.finishStarted, { s with biUsed := 8 }) else (.needMore, s))
  else some (.needMore, s)

/-- `deflate_stored`, with the input that is left. -/
def deflateStored (flush : Flush) (s : StoredStream) (input : List UInt8) :
    Option (BlockState × StoredStream × List UInt8) := do
  let (s, rest, last) ← s.copyLoop flush (min (s.head.pendingBufSize - 5) s.win.wSize)
    (s.head.availOut + 1) input
  let used := input.length - rest.length
  let s := if used ≠ 0 ∧ ¬last then { s with win := s.win.storedUpdate (input.take used) } else s
  if last then some (.finishDone, { s with biUsed := 8 }, rest)
  else if flush ≠ .noFlush ∧ flush ≠ .finish ∧ rest = [] ∧
      (s.win.strstart : Int) = s.win.blockStart then
    some (.blockDone, s, rest)
  else
    let s := { s with win := s.win.storedSlide rest.length }
    let room := s.win.windowSize - s.win.strstart
    let s := { s.readBuf (rest.take room) with win := s.win.storedRead rest }
    let (state, s) ← s.storedPending flush (rest.drop room)
    some (state, s, rest.drop room)

/-- `zng_tr_align`. -/
def trAlign (w : BitWriter) : Option BitWriter := do
  let w ← (← w.emitTree 1 false).sendCode staticLcodes 256
  some w.trFlushBits

/-- The block that completes a flush. -/
def flushBlock (flush : Flush) (s : StoredStream) : Option StoredStream :=
  if flush = .partialFlush then s.emit trAlign
  else if flush ≠ .block then
    (s.emit (BitWriter.storedBlock [] 0 false)).map fun s =>
      if flush = .fullFlush then { s with win := s.win.fullFlush } else s
  else some s

/-- What `deflate` does when `deflate_stored` is done. -/
def blockDone (flush : Flush) (s : StoredStream) : Option StoredStream :=
  (s.flushBlock flush).map flushPending

/-- The next call is not to fail where there is nothing to do. -/
def again (s : StoredStream) : StoredStream := { s with head := { s.head with lastFlush := -1 } }

/-- `deflate`, when the header is written, up to the trailer; where it does not return, there is no
code. -/
def compress (flush : Flush) (s : StoredStream) (input : List UInt8) :
    Option (Option Ret × StoredStream × List UInt8) :=
  if input ≠ [] ∨ s.win.lookahead ≠ 0 ∨ (flush ≠ .noFlush ∧ ¬s.finish) then do
    let (state, s, rest) ← s.deflateStored flush input
    let s := { s with finish := s.finish || state = .finishStarted || state = .finishDone }
    match state with
    | .needMore | .finishStarted =>
      some (some .ok, if s.head.availOut = 0 then s.again else s, rest)
    | .finishDone => some (none, s, rest)
    | .blockDone => do
      let s ← s.blockDone flush
      some (if s.head.availOut = 0 then (some .ok, s.again, rest) else (none, s, rest))
  else some (none, s, input)

/-- The bytes of the trailer. -/
def trailerBytes (wrap : Int) (adler totalIn : Nat) : List UInt8 :=
  if wrap = 2 then leBytes adler 4 ++ leBytes totalIn 4
  else if wrap = 1 then (leBytes adler 4).reverse
  else []

/-- The end of `deflate`. -/
def trailer (flush : Flush) (s : StoredStream) : Ret × StoredStream :=
  if flush ≠ .finish then (.ok, s)
  else
    let s := { s with head := s.head.put (trailerBytes s.win.wrap s.head.adler s.totalIn) }.flushPending
    let s := { s with win := { s.win with
      wrap := if 0 < s.win.wrap then -s.win.wrap else s.win.wrap } }
    (if s.head.pending = 0 then .streamEnd else .ok, s)

/-- `deflate` behind the header. -/
def deflateBody (flush : Flush) (s : StoredStream) (input : List UInt8) :
    Option (Ret × StoredStream × List UInt8) :=
  (s.compress flush input).map fun r =>
    match r.1 with
    | some ret => (ret, r.2)
    | none => ((r.2.1.trailer flush).1, (r.2.1.trailer flush).2, r.2.2)

/-- `deflate` on a stream at level 0, with the input that is left. -/
def deflate (flush : Flush) (availOut : Nat) (s : StoredStream) (input : List UInt8) :
    Option (Ret × StoredStream × List UInt8) :=
  if flush = .trees ∨ (s.finish ∧ flush ≠ .finish) then some (.streamError, s, input)
  else if availOut = 0 then some (.bufError, s, input)
  else
    let oldFlush := s.head.lastFlush
    let pending := s.head.pending
    let s := { s with head := { s.head with availOut, lastFlush := HeaderState.flushCode flush } }
    let s := if pending ≠ 0 then s.flushPending else s
    if pending ≠ 0 ∧ s.head.availOut = 0 then some (.ok, s.again, input)
    else if pending = 0 ∧ input = [] ∧ HeaderState.rankOf (HeaderState.flushCode flush) ≤ HeaderState.rankOf oldFlush ∧
        flush ≠ .finish then
      some (.bufError, s, input)
    else if s.finish ∧ input ≠ [] then some (.bufError, s, input)
    else
      let (ret, head) :=
        if s.finish then (none, s.head)
        else { s.head with strstart := s.win.strstart }.writeHeader
      match ret with
      | some ret => some (ret, { s with head }, input)
      | none => { s with head }.deflateBody flush input

/-- `deflateInit2` at level 0, on memory that holds `buf` and `window`. -/
def start (buf window : Nat → UInt8) (wrap windowBits memLevel strategy : Nat) : StoredStream where
  head :=
    { status := if wrap = 2 then .gzip else .init
      wrap := wrap
      level := 0
      strategy := strategy
      wBits := if windowBits = 8 then 9 else windowBits
      strstart := 0
      gzhead := none
      gzindex := 0
      pendingBuf := buf
      pendingBufSize := 2 ^ (memLevel + 6) * 4
      pendingOut := 0
      pending := 0
      lastFlush := -2
      adler := if wrap = 2 then crc32InitialValue else adler32InitialValue
      availOut := 0
      out := [] }
  win := DeflateState.init wrap 0 windowBits (2 ^ (memLevel + 6) * 4) window
  biBuf := 0
  biValid := 0
  biUsed := 0
  finish := false
  totalIn := 0

/-- A call: the flush value, the input and the room for output it is given. -/
structure Call where
  flush : Flush
  input : List UInt8
  availOut : Nat

/-- One call after the other, with all the input that they take. -/
def run (s : StoredStream) (taken : List UInt8) : List Call → Option (StoredStream × List UInt8)
  | [] => some (s, taken)
  | c :: calls => do
    let (_, s, rest) ← s.deflate c.flush c.availOut c.input
    s.run (taken ++ c.input.take (c.input.length - rest.length)) calls

end StoredStream
end ZlibNg
