import Mathlib.Tactic.Ring
import ZlibNg.Deflate.Header

/-! The window of `deflate`: what is read into it, when it slides, and the dictionaries. The hash
tables are left out; nothing here reads them. -/
namespace ZlibNg

def stdMinMatch : Nat := 3

def stdMaxMatch : Nat := 258

def minLookahead : Nat := stdMaxMatch + stdMinMatch + 1

def wBufMin : Nat := 32768

/-- `W_BUF_SIZE`. -/
def wBufSize (wsize : Nat) : Nat := max (2 * wsize) wBufMin

/-- `deflate_state`, as far as its window is concerned. -/
structure DeflateState where
  status : Status
  wrap : Int
  level : Nat
  wSize : Nat
  windowSize : Nat
  window : Nat → UInt8
  strstart : Nat
  lookahead : Nat
  blockStart : Int
  fillEnd : Nat
  pendingBufSize : Nat

/-- The `n` bytes of a buffer from index `pos` on. -/
def readBytes (buf : Nat → UInt8) (pos n : Nat) : List UInt8 :=
  (List.range' pos n).map buf

/-- `memmove(buf, buf + k, n)`. -/
def moveDown (buf : Nat → UInt8) (k n : Nat) : Nat → UInt8 := fun i =>
  if i < n then buf (k + i) else buf i

/-- A difference of two `unsigned`. -/
def sub32 (a b : Nat) : Nat := (a + 2 ^ 32 - b) % 2 ^ 32

namespace DeflateState

/-- `lm_init`. -/
def lmInit (s : DeflateState) : DeflateState :=
  { s with
    windowSize := wBufSize s.wSize
    fillEnd := 2 * s.wSize - minLookahead
    strstart := 0
    blockStart := 0
    lookahead := 0 }

/-- `deflateReset`. -/
def reset (s : DeflateState) : DeflateState :=
  { s with
    wrap := |s.wrap|
    status := if |s.wrap| = 2 then .gzip else .init }.lmInit

def maxDist (s : DeflateState) : Nat := s.wSize - minLookahead

/-- The slide of `fill_window`, by a multiple of the window size. -/
def slide (s : DeflateState) : DeflateState :=
  let slideLen := sub32 s.strstart s.maxDist / s.wSize * s.wSize
  { s with
    window := moveDown s.window slideLen (s.strstart + s.lookahead - slideLen)
    strstart := s.strstart - slideLen
    blockStart := s.blockStart - slideLen
    fillEnd := s.fillEnd - slideLen }

/-- The end of the data moves on before the window slides. -/
def advanceEnd (s : DeflateState) : DeflateState :=
  if s.fillEnd ≤ s.strstart then { s with fillEnd := s.fillEnd + s.wSize } else s

/-- The room that is left in the window. -/
def more (s : DeflateState) : Nat := sub32 (s.fillEnd + minLookahead) (s.lookahead + s.strstart)

/-- Where the window lies when `fill_window` reads into it. -/
def settle (s : DeflateState) : DeflateState :=
  let s := s.advanceEnd
  if s.windowSize - minLookahead < s.fillEnd then s.slide else s

/-- One round of `fill_window` on the input that is left. -/
def fillRound (s : DeflateState) (input : List UInt8) : DeflateState × List UInt8 :=
  let s := s.settle
  ({ s with
      window := writeBytes s.window (s.strstart + s.lookahead) (input.take s.more)
      lookahead := s.lookahead + min input.length s.more },
    input.drop s.more)

/-- `fill_window`. -/
def fillWindow : Nat → DeflateState → List UInt8 → Option (DeflateState × List UInt8)
  | 0, _, _ => none
  | fuel + 1, s, input =>
    let r := s.fillRound input
    if r.1.lookahead < minLookahead ∧ r.2 ≠ [] then fillWindow fuel r.1 r.2 else some r

/-- The bytes of a dictionary that can be hashed are passed over. -/
def skip (s : DeflateState) : DeflateState :=
  { s with
    strstart := s.strstart + (s.lookahead - (stdMinMatch - 1))
    lookahead := stdMinMatch - 1 }

/-- The loop of `deflateSetDictionary`. -/
def insertLoop : Nat → DeflateState → List UInt8 → Option DeflateState
  | 0, _, _ => none
  | fuel + 1, s, rest =>
    if stdMinMatch ≤ s.lookahead then
      (fillWindow (fuel + 1) s.skip rest).bind fun r => insertLoop fuel r.1 r.2
    else some s

/-- A dictionary that fills the window replaces the history of a raw stream. -/
def clearFor (s : DeflateState) (dictLength : Nat) : DeflateState :=
  if s.wSize ≤ dictLength ∧ s.wrap = 0 then { s with strstart := 0, blockStart := 0 } else s

/-- `deflateSetDictionary`. -/
def setDictionary (fuel : Nat) (s : DeflateState) (dictionary : List UInt8) :
    Option (Ret × DeflateState) :=
  if s.wrap = 2 ∨ (s.wrap = 1 ∧ s.status ≠ .init) ∨ s.lookahead ≠ 0 then some (.streamError, s)
  else do
    let (s', rest) ← fillWindow fuel (s.clearFor dictionary.length)
      (dictionary.drop (dictionary.length - s.wSize))
    let s' ← insertLoop fuel s' rest
    some (.ok, { s' with
      strstart := s'.strstart + s'.lookahead
      blockStart := s'.strstart + s'.lookahead
      lookahead := 0 })

/-- `deflateGetDictionary`. -/
def getDictionary (s : DeflateState) : List UInt8 :=
  let len := min (s.strstart + s.lookahead) s.wSize
  readBytes s.window (s.strstart + s.lookahead - len) len

/-- What a full flush does once it is complete. -/
def fullFlush (s : DeflateState) : DeflateState :=
  if s.lookahead = 0 then { s with strstart := 0, blockStart := 0 } else s

end DeflateState

end ZlibNg
