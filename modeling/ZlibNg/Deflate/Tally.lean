import ZlibNg.Deflate.LongestMatch
import ZlibNg.Deflate.StoredStream
import ZlibNg.Trees.BlockRead

/-! `deflate` with the strategies that need no hash table, Huffman codes only and run lengths, with
all the bytes it moves between the input, the window, the symbol buffer and the output. -/
namespace ZlibNg

/-- `compare256_rle_8`, from `len` on: eight bytes at a time. -/
def compare256RleBytes (mem : Int → UInt8) (src0 src1 : Int) : Nat → Nat → Nat
  | 0, _ => 256
  | n + 1, len =>
    match (List.range 8).find? fun i => mem src0 != mem (src1 + (len + i : Nat)) with
    | some i => len + i
    | none => compare256RleBytes mem src0 src1 n (len + 8)

/-- Two bytes, repeated in a word. -/
def repeatPair (pair : Nat) : Nat :=
  let half := pair <<< 16 ||| pair
  half <<< 32 ||| half

/-- `compare256_rle_64`, from `len` on: a word at a time. -/
def compare256RleWords (mem : Int → UInt8) (src0 src1 : Int) : Nat → Nat → Nat
  | 0, _ => 256
  | n + 1, len =>
    let diff := repeatPair (leNat (bytesAt mem src0 2)) ^^^ memread8 mem (src1 + len)
    if diff ≠ 0 then len + firstDiffByte64 diff
    else compare256RleWords mem src0 src1 n (len + 8)

/-- `compare256_rle`, which is one of the two. -/
def Compare256.runRle (mem : Int → UInt8) (src0 src1 : Int) : Compare256 → Nat
  | bytes => compare256RleBytes mem src0 src1 32 0
  | words => compare256RleWords mem src0 src1 32 0

/-- A literal is kept with the distance 0. -/
theorem BufferedSym.literal_dist : 0 ≤ 32768 := Nat.zero_le _

/-- The symbol of a byte. -/
def BufferedSym.literal (c : UInt8) : BufferedSym := ⟨0, c.toNat, literal_dist, c.toNat_lt⟩

/-- The symbol of a run: its length less three is cut to a byte. -/
def BufferedSym.run (matchLen : Nat) : BufferedSym :=
  ⟨1, (matchLen - stdMinMatch) % 256, by decide, Nat.mod_lt _ (by decide)⟩

/-- How many bytes a symbol stands for. -/
def BufferedSym.size (x : BufferedSym) : Nat := if x.dist = 0 then 1 else x.lc + stdMinMatch

/-- What is particular to a strategy: the bytes its loop asks for, and the symbol of one turn. -/
structure Tallier where
  need : Nat
  turn : DeflateState → BufferedSym

/-- The loop of `deflate_huff`. -/
def deflateHuff : Tallier where
  need := 1
  turn win := .literal (win.window win.strstart)

/-- The loop of `deflate_rle`. A length that is left from the last turn is less than three, as one of
zero is. -/
def deflateRle (cmp : Compare256) : Tallier where
  need := stdMaxMatch + 1
  turn win :=
    let mem := fun i : Int => win.window i.toNat
    let scan : Int := win.strstart - 1
    let matchLen :=
      if stdMinMatch ≤ win.lookahead ∧ 0 < win.strstart ∧ mem scan = mem (scan + 1) ∧
          mem (scan + 1) = mem (scan + 2) then
        min (cmp.runRle mem scan (scan + 3) + 2) win.lookahead
      else 0
    if stdMinMatch ≤ matchLen then .run matchLen else .literal (win.window win.strstart)

def zRle : Nat := 3

def zFixed : Nat := 4

/-- The strategies that `deflate` chooses by name. -/
def Tallier.of (cmp : Compare256) (strategy : Nat) : Option Tallier :=
  if strategy = zHuffmanOnly then some deflateHuff
  else if strategy = zRle then some (deflateRle cmp)
  else none

/-- A stream with a symbol buffer. `base` is what a stream at level 0 has, too; `blocks` counts the
blocks, since a block finds in the trees what the last one left there. -/
structure TallyStream where
  base : StoredStream
  syms : List BufferedSym
  litBufsize : Nat
  blocks : Nat

namespace TallyStream

/-- `fill_window`, with the check value that `read_buf` keeps. -/
def fillWindow (s : TallyStream) (input : List UInt8) : Option (TallyStream × List UInt8) :=
  (s.base.win.fillWindow (input.length + 1) input).map fun r =>
    ({ s with base :=
        { s.base.readBuf (input.take (input.length - r.2.length)) with win := r.1 } }, r.2)

/-- The start of a turn: `fill_window` where there is too little lookahead. -/
def readAhead (t : Tallier) (s : TallyStream) (input : List UInt8) :
    Option (TallyStream × List UInt8) :=
  if s.base.win.lookahead < t.need then s.fillWindow input else some (s, input)

/-- `zng_tr_tally_lit` and `zng_tr_tally_dist`; the bytes of the symbol are passed over. -/
def tally (x : BufferedSym) (s : TallyStream) : TallyStream :=
  { s with
    base := { s.base with win := { s.base.win with
      strstart := s.base.win.strstart + x.size
      lookahead := s.base.win.lookahead - x.size } }
    syms := s.syms ++ [x] }

/-- What `zng_tr_flush_block` is told of a block. -/
def flushArgs (last : Bool) (s : TallyStream) : FlushArgs where
  buf :=
    if 0 ≤ s.base.win.blockStart then
      some (readBytes s.base.win.window s.base.win.blockStart.toNat s.base.left)
    else none
  storedLen := s.base.left
  last := last
  level := s.base.head.level
  fixed := s.base.head.strategy = zFixed

/-- `FLUSH_BLOCK_ONLY`; `dl` is what the blocks leave in the trees. -/
def flushBlockOnly (dl : Nat → TreeKind → Nat → Nat) (last : Bool) (s : TallyStream) :
    Option TallyStream :=
  (trFlushSyms (s.flushArgs last) s.syms (dl s.blocks) s.base.writer).map fun f =>
    let base := s.base.absorb f.writer
    let base := { base with win := { base.win with blockStart := base.win.strstart } }
    { s with base := base.flushPending, syms := [], blocks := s.blocks + 1 }

/-- The end of a loop, when the input is used up. -/
def lastBlock (dl : Nat → TreeKind → Nat → Nat) (flush : Flush) (s : TallyStream) :
    Option (BlockState × TallyStream) :=
  if flush = .finish then
    (s.flushBlockOnly dl true).map fun s =>
      (if s.base.head.availOut = 0 then .finishStarted else .finishDone, s)
  else if s.syms ≠ [] then
    (s.flushBlockOnly dl false).map fun s =>
      (if s.base.head.availOut = 0 then .needMore else .blockDone, s)
  else some (.blockDone, s)

/-- The loop of a strategy, with the input that is left. -/
def tallyLoop (t : Tallier) (dl : Nat → TreeKind → Nat → Nat) (flush : Flush) :
    Nat → TallyStream → List UInt8 → Option (BlockState × TallyStream × List UInt8)
  | 0, _, _ => none
  | fuel + 1, s, input => do
    let (s, input) ← s.readAhead t input
    if s.base.win.lookahead < t.need ∧ flush = .noFlush then some (.needMore, s, input)
    else if s.base.win.lookahead = 0 then
      (s.lastBlock dl flush).map fun r => (r.1, r.2, input)
    else
      let s := s.tally (t.turn s.base.win)
      if s.syms.length = s.litBufsize - 1 then do
        let s ← s.flushBlockOnly dl false
        if s.base.head.availOut = 0 then some (.needMore, s, input)
        else tallyLoop t dl flush fuel s input
      else tallyLoop t dl flush fuel s input

/-- The next call is not to fail where there is nothing to do. -/
def again (s : TallyStream) : TallyStream := { s with base := s.base.again }

/-- `FINISH_STATE` is entered when a loop has written the last block. -/
def close (state : BlockState) (s : TallyStream) : TallyStream :=
  { s with base := { s.base with
    finish := s.base.finish || state = .finishStarted || state = .finishDone } }

/-- What `deflate` does when a loop is done; where it does not return, there is no code. -/
def afterLoop (flush : Flush) (state : BlockState) (s : TallyStream) (rest : List UInt8) :
    Option (Option Ret × TallyStream × List UInt8) :=
  match state with
  | .needMore | .finishStarted =>
    some (some .ok, if s.base.head.availOut = 0 then s.again else s, rest)
  | .finishDone => some (none, s, rest)
  | .blockDone => do
    let base ← s.base.blockDone flush
    let s := { s with base }
    some (if s.base.head.availOut = 0 then (some .ok, s.again, rest) else (none, s, rest))

/-- `deflate`, when the header is written, up to the trailer. Level 0 goes before the strategy. -/
def compress (cmp : Compare256) (dl : Nat → TreeKind → Nat → Nat) (flush : Flush) (s : TallyStream)
    (input : List UInt8) : Option (Option Ret × TallyStream × List UInt8) :=
  if s.base.head.level = 0 then
    (s.base.compress flush input).map fun r => (r.1, { s with base := r.2.1 }, r.2.2)
  else if input ≠ [] ∨ s.base.win.lookahead ≠ 0 ∨ (flush ≠ .noFlush ∧ ¬s.base.finish) then do
    let t ← Tallier.of cmp s.base.head.strategy
    let (state, s, rest) ← s.tallyLoop t dl flush (s.base.win.lookahead + input.length + 1) input
    (s.close state).afterLoop flush state rest
  else some (none, s, input)

/-- The end of a call: the trailer, where no code is returned yet. -/
def conclude (flush : Flush) (r : Option Ret × TallyStream × List UInt8) :
    Ret × TallyStream × List UInt8 :=
  match r.1 with
  | some ret => (ret, r.2)
  | none => ((r.2.1.base.trailer flush).1, { r.2.1 with base := (r.2.1.base.trailer flush).2 }, r.2.2)

/-- `deflate` behind the header. -/
def deflateBody (cmp : Compare256) (dl : Nat → TreeKind → Nat → Nat) (flush : Flush)
    (s : TallyStream) (input : List UInt8) : Option (Ret × TallyStream × List UInt8) :=
  (s.compress cmp dl flush input).map (conclude flush)

/-- `deflate`, with the input that is left. -/
def deflate (cmp : Compare256) (dl : Nat → TreeKind → Nat → Nat) (flush : Flush) (availOut : Nat)
    (s : TallyStream) (input : List UInt8) : Option (Ret × TallyStream × List UInt8) :=
  if flush = .trees ∨ (s.base.finish ∧ flush ≠ .finish) then some (.streamError, s, input)
  else if availOut = 0 then some (.bufError, s, input)
  else
    let oldFlush := s.base.head.lastFlush
    let pending := s.base.head.pending
    let base := { s.base with
      head := { s.base.head with availOut, lastFlush := HeaderState.flushCode flush } }
    let base := if pending ≠ 0 then base.flushPending else base
    let s := { s with base }
    if pending ≠ 0 ∧ s.base.head.availOut = 0 then some (.ok, s.again, input)
    else if pending = 0 ∧ input = [] ∧
        HeaderState.rankOf (HeaderState.flushCode flush) ≤ HeaderState.rankOf oldFlush ∧
        flush ≠ .finish then
      some (.bufError, s, input)
    else if s.base.finish ∧ input ≠ [] then some (.bufError, s, input)
    else
      let (ret, head) :=
        if s.base.finish then (none, s.base.head)
        else { s.base.head with strstart := s.base.win.strstart }.writeHeader
      let s := { s with base := { s.base with head } }
      match ret with
      | some ret => some (ret, s, input)
      | none => s.deflateBody cmp dl flush input

/-- `deflateInit2`, on memory that holds `buf` and `window`. -/
def start (buf window : Nat → UInt8) (wrap windowBits memLevel level strategy : Nat) :
    TallyStream where
  base :=
    let base := StoredStream.start buf window wrap windowBits memLevel strategy
    { base with
      head := { base.head with level }
      win := DeflateState.init wrap level windowBits (2 ^ (memLevel + 6) * 4) window }
  syms := []
  litBufsize := 2 ^ (memLevel + 6)
  blocks := 0

/-- One call after the other, with all the input that they take. -/
def run (cmp : Compare256) (dl : Nat → TreeKind → Nat → Nat) (s : TallyStream)
    (taken : List UInt8) : List StoredStream.Call → Option (TallyStream × List UInt8)
  | [] => some (s, taken)
  | c :: calls => do
    let (_, s, rest) ← s.deflate cmp dl c.flush c.availOut c.input
    s.run cmp dl (taken ++ c.input.take (c.input.length - rest.length)) calls

end TallyStream
end ZlibNg
