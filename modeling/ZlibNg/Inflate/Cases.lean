import ZlibNg.Inflate.State

/-! The cases of the switch in `inflate`, as programs over the bit accumulator. A program is run
from the saved state; where it leaves for want of input nothing but the accumulator has changed. -/
namespace ZlibNg
open BitProg

abbrev CaseProg := BitProg Code InflateState

def maxWbits : Nat := 15
def zDeflated : Nat := 8
def maxLenRootBits : Nat := 10

/-- The permutation of code lengths. -/
def order : List Nat := [16, 17, 18, 0, 8, 7, 9, 6, 10, 5, 11, 4, 12, 3, 13, 2, 14, 1, 15]

namespace InflateState

def caseHead (s : InflateState) : CaseProg :=
  if s.wrap = 0 then pure { s with mode := .typedo }
  else do
    needBits 16
    let w ← hold
    if s.wrap &&& 2 ≠ 0 ∧ w = 0x8b1f then do
      initBits
      return { s with
        wbits := if s.wbits = 0 then maxWbits else s.wbits
        check := crc32 crc32InitialValue (leBytes w 2)
        mode := .flags }
    else do
      let s := s.withHead fun head => { head with done := -1 }
      let b ← bits 8
      if s.wrap &&& 1 = 0 ∨ (b <<< 8 + w >>> 8) % 31 ≠ 0 then
        return s.setBad "incorrect header check"
      else do
        let method ← bits 4
        if method ≠ zDeflated then return s.setBad "unknown compression method"
        else do
          dropBits 4
          let len := (← bits 4) + 8
          let s := { s with wbits := if s.wbits = 0 then len else s.wbits }
          if maxWbits < len ∨ s.wbits < len then return s.setBad "invalid window size"
          else do
            let w ← hold
            initBits
            return { s with
              flags := 0
              adler := adler32InitialValue
              check := adler32InitialValue
              mode := if w &&& 0x200 ≠ 0 then .dictid else .type }

def caseFlags (s : InflateState) : CaseProg := do
  needBits 16
  let w ← hold
  let s := { s with flags := UInt32.ofNat w }
  if s.flags &&& 0xff ≠ UInt32.ofNat zDeflated then return s.setBad "unknown compression method"
  else if s.flags &&& 0xe000 ≠ 0 then return s.setBad "unknown header flags set"
  else do
    let s := s.withHead fun head => { head with text := (w >>> 8) % 2 }
    let s := s.headerCheck (leBytes w 2)
    initBits
    return { s with mode := .time }

def caseTime (s : InflateState) : CaseProg := do
  needBits 32
  let w ← hold
  let s := s.withHead fun head => { head with time := w % 2 ^ 32 }
  let s := s.headerCheck (leBytes w 4)
  initBits
  return { s with mode := .os }

def caseOs (s : InflateState) : CaseProg := do
  needBits 16
  let w ← hold
  let s := s.withHead fun head => { head with xflags := w % 256, os := w >>> 8 }
  let s := s.headerCheck (leBytes w 2)
  initBits
  return { s with mode := .exlen }

def caseExlen (s : InflateState) : CaseProg :=
  if s.flags &&& 0x0400 ≠ 0 then do
    needBits 16
    let w ← hold
    let s := { s with length := w % 2 ^ 16 }
    let s := s.withHead fun head => { head with extraLen := w % 2 ^ 16 }
    let s := s.headerCheck (leBytes w 2)
    initBits
    return { s with mode := .extra }
  else
    let s := s.withHead fun head => { head with extra := none }
    pure { s with mode := .extra }

/-- The end of the gzip header. -/
def headerDone (s : InflateState) : InflateState :=
  let s := s.withHead fun head =>
    { head with hcrc := (s.flags.toNat >>> 9) % 2, done := 1 }
  let s := if s.wrap &&& 4 ≠ 0 ∧ s.flags ≠ 0 then
    { s with adler := crc32InitialValue, check := crc32InitialValue } else s
  { s with mode := .type }

def caseHcrc (s : InflateState) : CaseProg :=
  if s.flags &&& 0x0200 ≠ 0 then do
    needBits 16
    let w ← hold
    if s.wrap &&& 4 ≠ 0 ∧ w ≠ s.check % 2 ^ 16 then return s.setBad "header crc mismatch"
    else do
      initBits
      return s.headerDone
  else pure s.headerDone

def caseDictid (s : InflateState) : CaseProg := do
  needBits 32
  let w ← hold
  initBits
  return { s with adler := zswap32 w, check := zswap32 w, mode := .dict }

def caseTypedo (s : InflateState) : CaseProg :=
  if s.last then do
    byteBits
    return { s with mode := .check }
  else do
    needBits 3
    let last ← bits 1
    dropBits 1
    let s := { s with last := last = 1 }
    let type ← bits 2
    dropBits 2
    if type = 0 then return { s with mode := .stored }
    else if type = 1 then return { s.fixedtables with mode := .len_ }
    else if type = 2 then return { s with mode := .table }
    else return s.setBad "invalid block type"

/-- `STORED`, once the accumulator is at a byte boundary. -/
def caseStored (s : InflateState) : CaseProg := do
  needBits 32
  let w ← hold
  if w % 2 ^ 16 ≠ (w >>> 16) ^^^ 0xffff then return s.setBad "invalid stored block lengths"
  else do
    initBits
    return { s with length := w % 2 ^ 16, mode := .copy_ }

def caseTable (s : InflateState) : CaseProg := do
  needBits 14
  let nlen := (← bits 5) + 257
  dropBits 5
  let ndist := (← bits 5) + 1
  dropBits 5
  let ncode := (← bits 4) + 4
  dropBits 4
  let s := { s with nlen := nlen, ndist := ndist, ncode := ncode }
  if nlen > 286 ∨ ndist > 30 then return s.setBad "too many length or distance symbols"
  else return { s with have_ := 0, mode := .lenlens }

/-- The code lengths not sent are zero. -/
def clearLens (lens : Nat → Nat) : List Nat → Nat → Nat
  | [] => lens
  | i :: is => clearLens (Function.update lens i 0) is

/-- One pass of the loop of `LENLENS`, or what follows the loop. -/
def caseLenlens (s : InflateState) : CaseProg :=
  if s.have_ < s.ncode then do
    needBits 3
    let len ← bits 3
    dropBits 3
    return { s with
      lens := Function.update s.lens (order.getD s.have_ 0) len
      have_ := s.have_ + 1 }
  else
    let s := { s with lens := clearLens s.lens (order.drop s.have_), have_ := 19 }
    match zngInflateTable .codes ((List.range 19).map s.lens) 7 with
    | .error _ => pure (s.setBad "invalid code lengths set")
    | .ok t => pure { s with
        lencode := t.entry, lenbits := t.bits, distcode := t.entry, have_ := 0, mode := .codelens }

/-- Repeat a code length. -/
def repeatLens (s : InflateState) (len copy : Nat) : InflateState :=
  if s.have_ + copy > s.nlen + s.ndist then s.setBad "invalid bit length repeat"
  else { s with
    lens := fun i => if s.have_ ≤ i ∧ i < s.have_ + copy then len else s.lens i
    have_ := s.have_ + copy }

/-- The tables of a dynamic block, once all code lengths are in. -/
def buildTables (s : InflateState) : InflateState :=
  if s.lens 256 = 0 then s.setBad "invalid code -- missing end-of-block"
  else
    match zngInflateTable .lens ((List.range s.nlen).map s.lens) maxLenRootBits with
    | .error _ => s.setBad "invalid literal/lengths set"
    | .ok t =>
      let s := { s with lencode := t.entry, lenbits := t.bits }
      match zngInflateTable .dists ((List.range s.ndist).map fun i => s.lens (s.nlen + i)) 9 with
      | .error _ => s.setBad "invalid distances set"
      | .ok t => { s with distcode := t.entry, distbits := t.bits, mode := .len_ }

/-- One pass of the loop of `CODELENS`, or what follows the loop. -/
def caseCodelens (s : InflateState) : CaseProg :=
  if s.have_ < s.nlen + s.ndist then do
    let here ← lookup (fun hold => s.lencode (hold % 2 ^ s.lenbits)) Code.bits
    if here.val < 16 then do
      dropBits here.bits
      return { s with lens := Function.update s.lens s.have_ here.val, have_ := s.have_ + 1 }
    else if here.val = 16 then do
      needBits (here.bits + 2)
      dropBits here.bits
      if s.have_ = 0 then return s.setBad "invalid bit length repeat"
      else do
        let len := s.lens (s.have_ - 1)
        let copy := 3 + (← bits 2)
        dropBits 2
        return s.repeatLens len copy
    else if here.val = 17 then do
      needBits (here.bits + 3)
      dropBits here.bits
      let copy := 3 + (← bits 3)
      dropBits 3
      return s.repeatLens 0 copy
    else do
      needBits (here.bits + 7)
      dropBits here.bits
      let copy := 11 + (← bits 7)
      dropBits 7
      return s.repeatLens 0 copy
  else pure s.buildTables

/-- The second lookup, in the sub-table that the entry `last` selects; the result comes with
the bits of both codes. -/
def lookupSub (table : Nat → Code) (last : Code) : BitProg Code Code :=
  lookup (fun hold => table (last.val +
      (hold % 2 ^ (last.codeBits + (last.op &&& 15))) >>> last.codeBits))
    (fun here => last.codeBits + here.codeBits)

/-- Dispatch on the entry of a literal/length code. -/
def afterLen (s : InflateState) (here : Code) (back : Nat) : InflateState :=
  let s := { s with back := back, length := here.val }
  if here.op = 0 then { s with mode := .lit }
  else if here.op &&& 32 ≠ 0 then { s with back := -1, mode := .type }
  else if here.op &&& 64 ≠ 0 then s.setBad "invalid literal/length code"
  else { s with extra := here.codeExtra, mode := .lenext }

/-- Dispatch on the entry of a distance code. -/
def afterDist (s : InflateState) (here : Code) (back : Nat) : InflateState :=
  let s := { s with back := s.back + back }
  if here.op &&& 64 ≠ 0 then s.setBad "invalid distance code"
  else { s with offset := here.val, extra := here.codeExtra, mode := .distext }

/-- `LEN`, without the entry to `inflate_fast`. -/
def caseLen (s : InflateState) : CaseProg := do
  let last ← lookup (fun hold => s.lencode (hold % 2 ^ s.lenbits)) Code.codeBits
  if last.op ≠ 0 ∧ last.op &&& 0xf0 = 0 then do
    let here ← lookupSub s.lencode last
    dropBits last.codeBits
    dropBits here.codeBits
    return s.afterLen here (last.codeBits + here.codeBits)
  else do
    dropBits last.codeBits
    return s.afterLen last last.codeBits

def caseLenext (s : InflateState) : CaseProg :=
  if s.extra ≠ 0 then do
    needBits s.extra
    let length := s.length + (← bits s.extra)
    dropBits s.extra
    return { s with length := length, back := s.back + s.extra, was := length, mode := .dist }
  else pure { s with was := s.length, mode := .dist }

def caseDist (s : InflateState) : CaseProg := do
  let last ← lookup (fun hold => s.distcode (hold % 2 ^ s.distbits)) Code.codeBits
  if last.op &&& 0xf0 = 0 then do
    let here ← lookupSub s.distcode last
    dropBits last.codeBits
    dropBits here.codeBits
    return s.afterDist here (last.codeBits + here.codeBits)
  else do
    dropBits last.codeBits
    return s.afterDist last last.codeBits

def caseDistext (s : InflateState) : CaseProg :=
  if s.extra ≠ 0 then do
    needBits s.extra
    let offset := s.offset + (← bits s.extra)
    dropBits s.extra
    return { s with offset := offset, back := s.back + s.extra, mode := .match_ }
  else pure { s with mode := .match_ }

/-- `CHECK`, on a state in which all output is accounted for. -/
def caseCheck (s : InflateState) : CaseProg :=
  if s.wrap ≠ 0 then do
    needBits 32
    let w ← hold
    if s.wrap &&& 4 ≠ 0 ∧ (if s.flags ≠ 0 then w else zswap32 w) ≠ s.check then
      return s.setBad "incorrect data check"
    else do
      initBits
      return { s with mode := .length }
  else pure { s with mode := .length }

def caseLength (s : InflateState) : CaseProg :=
  if s.wrap ≠ 0 ∧ s.flags ≠ 0 then do
    needBits 32
    let w ← hold
    if s.wrap &&& 4 ≠ 0 ∧ w ≠ s.total % 2 ^ 32 then return s.setBad "incorrect length check"
    else do
      initBits
      return { s with mode := .done }
  else pure { s with mode := .done }

end InflateState
end ZlibNg
