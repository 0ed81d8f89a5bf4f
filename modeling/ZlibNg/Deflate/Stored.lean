import ZlibNg.Deflate.Window

/-! `deflate_stored`, as far as the window and the counts of input and output are concerned. -/
namespace ZlibNg

def maxStored : Nat := 65535

/-- `block_state`. -/
inductive BlockState
  | needMore | blockDone | finishStarted | finishDone
  deriving DecidableEq, Repr

/-- The number of header bytes of a stored block behind `biValid` pending bits. -/
def storedHeader (biValid : Nat) : Nat := (biValid + 42) / 8

/-- What the loop that copies input directly leaves: the bytes of the window not yet written, the
input and the pending bits. -/
structure StoredCopy where
  left : Nat
  availIn : Nat
  biValid : Nat
  last : Bool

/-- The loop that copies stored blocks to the output. -/
def storedLoop (flush : Flush) (minBlock left availIn availOut biValid : Nat) : StoredCopy :=
  if availOut < storedHeader biValid then
    { left := left, availIn := availIn, biValid := biValid, last := false }
  else
    let room := availOut - storedHeader biValid
    let len := min (min maxStored (left + availIn)) room
    if len < minBlock ∧ ((len = 0 ∧ flush ≠ .finish) ∨ flush = .noFlush ∨ len ≠ left + availIn) then
      { left := left, availIn := availIn, biValid := biValid, last := false }
    else
      let availIn' := availIn - (len - min left len)
      if flush = .finish ∧ len = left + availIn then
        { left := left - min left len, availIn := availIn', biValid := 0, last := true }
      else storedLoop flush minBlock (left - min left len) availIn' (room - len) 0
termination_by availOut
decreasing_by
  have : 5 ≤ storedHeader biValid := by
    unfold storedHeader
    omega
  omega

namespace DeflateState

/-- The window after `copied` went directly to the output. -/
def storedUpdate (s : DeflateState) (copied : List UInt8) : DeflateState :=
  let s :=
    if s.wSize ≤ copied.length then
      { s with
        window := writeBytes s.window 0 (copied.drop (copied.length - s.wSize))
        strstart := s.wSize }
    else
      let s :=
        if s.windowSize - s.strstart ≤ copied.length then
          { s with
            window := moveDown s.window (s.strstart - s.wSize) s.wSize
            strstart := s.wSize }
        else s
      { s with
        window := writeBytes s.window s.strstart copied
        strstart := s.strstart + copied.length }
  { s with blockStart := s.strstart }

/-- The window slides as far as the data not yet written and the history allow, when the input does
not fit behind it. -/
def storedSlide (s : DeflateState) (availIn : Nat) : DeflateState :=
  if s.windowSize - s.strstart < availIn ∧ (s.wSize : Int) ≤ s.blockStart then
    let slideLen := min s.blockStart.toNat (s.strstart - s.wSize)
    { s with
      window := moveDown s.window slideLen (s.strstart - slideLen)
      strstart := s.strstart - slideLen
      blockStart := s.blockStart - slideLen }
  else s

/-- The rest of the input that fits goes into the window. -/
def storedRead (s : DeflateState) (input : List UInt8) : DeflateState :=
  { s with
    window := writeBytes s.window s.strstart (input.take (s.windowSize - s.strstart))
    strstart := s.strstart + min (s.windowSize - s.strstart) input.length }

/-- A stored block from the window goes to the pending buffer. -/
def storedPending (s : DeflateState) (flush : Flush) (availIn biValid : Nat) :
    BlockState × DeflateState :=
  let have_ := min (s.pendingBufSize - storedHeader biValid) maxStored
  let left := (s.strstart - s.blockStart).toNat
  if min have_ s.wSize ≤ left ∨
      ((left ≠ 0 ∨ flush = .finish) ∧ flush ≠ .noFlush ∧ availIn = 0 ∧ left ≤ have_) then
    (if flush = .finish ∧ availIn = 0 ∧ min left have_ = left then .finishStarted else .needMore,
      { s with blockStart := s.blockStart + (min left have_ : Nat) })
  else (.needMore, s)

/-- `deflate_stored`; the number is that of the bytes of input that are used. -/
def deflateStored (s : DeflateState) (flush : Flush) (input : List UInt8) (availOut biValid : Nat) :
    BlockState × DeflateState × Nat :=
  let r := storedLoop flush (min (s.pendingBufSize - 5) s.wSize) (s.strstart - s.blockStart).toNat
    input.length availOut biValid
  let used := input.length - r.availIn
  let s := { s with blockStart := s.strstart - r.left }
  let s := if used ≠ 0 ∧ ¬r.last then s.storedUpdate (input.take used) else s
  if r.last then (.finishDone, s, used)
  else if flush ≠ .noFlush ∧ flush ≠ .finish ∧ r.availIn = 0 ∧ (s.strstart : Int) = s.blockStart then
    (.blockDone, s, used)
  else
    let s := s.storedSlide r.availIn
    let read := min (s.windowSize - s.strstart) r.availIn
    let s := s.storedRead (input.drop used)
    let (state, s) := s.storedPending flush (r.availIn - read) r.biValid
    (state, s, used + read)

end DeflateState

end ZlibNg
