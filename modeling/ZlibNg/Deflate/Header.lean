import ZlibNg.Gzip.Header
import ZlibNg.Inflate.Inflate

/-! `deflate` up to the start of compression: the pending buffer and the header of the stream. -/
namespace ZlibNg

/-- `gz_header`, as deflate reads it; the zero at the end of a string is left out, and an `int` is
the number of its bit pattern. -/
structure GzHead where
  text : Nat
  time : Nat
  os : Nat
  extra : Option (List UInt8)
  name : Option (List UInt8)
  comment : Option (List UInt8)
  hcrc : Nat

/-- The states of a stream before it ends. -/
inductive Status
  | init | gzip | extra | name | comment | hcrc | busy
  deriving DecidableEq, Repr

def zHuffmanOnly : Nat := 2

/-- `OS_CODE`, where no other system is recognised. -/
def osCode : Nat := 3

/-- `deflate_state` and its stream, as far as the header is concerned; `out` is all that has been
written, oldest first. -/
structure HeaderState where
  status : Status
  wrap : Nat
  level : Nat
  strategy : Nat
  wBits : Nat
  strstart : Nat
  gzhead : Option GzHead
  gzindex : Nat
  pendingBuf : Nat → UInt8
  pendingBufSize : Nat
  pendingOut : Nat
  pending : Nat
  lastFlush : Int
  adler : Nat
  availOut : Nat
  out : List UInt8

/-- A part of `deflateHeaders`: it goes on, or `deflate` returns with a code. -/
abbrev HeaderStep := Except (Ret × HeaderState) HeaderState

/-- What `deflate` makes of the result of `deflateHeaders`. -/
def HeaderStep.outcome : HeaderStep → Option Ret × HeaderState
  | .error (ret, s) => (some ret, s)
  | .ok s => (none, s)

namespace HeaderState

/-- `put_byte`, `put_short`, `put_uint32` and the copies into the pending buffer. -/
def put (bytes : List UInt8) (s : HeaderState) : HeaderState :=
  { s with
    pendingBuf := writeBytes s.pendingBuf s.pending bytes
    pending := s.pending + bytes.length }

/-- The bytes `beg` to `pending` of the pending buffer. -/
def pendingFrom (s : HeaderState) (beg : Nat) : List UInt8 :=
  (List.range (s.pending - beg)).map fun i => s.pendingBuf (beg + i)

/-- The bytes that are not yet written. -/
def held (s : HeaderState) : List UInt8 :=
  (List.range s.pending).map fun i => s.pendingBuf (s.pendingOut + i)

/-- `flush_pending`, with an empty bit buffer. -/
def flushPending (s : HeaderState) : HeaderState :=
  let len := min s.pending s.availOut
  if len = 0 then s
  else
    let s := { s with
      out := s.out ++ (List.range len).map fun i => s.pendingBuf (s.pendingOut + i)
      pendingOut := s.pendingOut + len
      availOut := s.availOut - len
      pending := s.pending - len }
    if s.pending = 0 then { s with pendingOut := 0 } else s

/-- Flush, and return where the pending buffer does not get empty. -/
def flushAll (s : HeaderState) : HeaderStep :=
  let s := s.flushPending
  if s.pending ≠ 0 then .error (.ok, { s with lastFlush := -1 }) else .ok s

/-- `HCRC_UPDATE`. -/
def hcrcUpdate (g : GzHead) (beg : Nat) (s : HeaderState) : HeaderState :=
  if g.hcrc ≠ 0 ∧ beg < s.pending then { s with adler := crc32 s.adler (s.pendingFrom beg) } else s

/-- The level in the header of a zlib stream. -/
def levelFlags (s : HeaderState) : Nat :=
  if zHuffmanOnly ≤ s.strategy ∨ s.level < 2 then 0
  else if s.level < 6 then 1
  else if s.level = 6 then 2
  else 3

/-- The extra flags in the header of a gzip stream. -/
def gzipFlags (s : HeaderState) : Nat :=
  if s.level = 9 then 2 else if zHuffmanOnly ≤ s.strategy ∨ s.level < 2 then 4 else 0

/-- `INIT_STATE`: the header of a zlib stream. -/
def zlibHeader (s : HeaderState) : HeaderStep :=
  if s.status = .init then
    let header := (8 + (s.wBits - 8) <<< 4) <<< 8
    let header := header ||| s.levelFlags <<< 6
    let header := if s.strstart ≠ 0 then header ||| 0x20 else header
    let header := header + (31 - header % 31)
    let s' := s.put (leBytes header 2).reverse
    let s' := if s.strstart ≠ 0 then s'.put (leBytes s.adler 4).reverse else s'
    { s' with adler := adler32InitialValue, status := .busy }.flushAll
  else .ok s

/-- The fields of fixed length, and the length of the extra field. -/
def putFields (g : GzHead) (s : HeaderState) : HeaderState :=
  let s := s.put [UInt8.ofNat (Gzip.flagByte (g.text ≠ 0) (g.hcrc ≠ 0) g.extra.isSome
    g.name.isSome g.comment.isSome)]
  let s := s.put (leBytes g.time 4)
  let s := s.put [UInt8.ofNat s.gzipFlags]
  let s := s.put [UInt8.ofNat (g.os &&& 0xff)]
  match g.extra with
  | none => s
  | some extra => s.put (leBytes extra.length 2)

/-- `GZIP_STATE`: the part of fixed length. -/
def gzipHeader (s : HeaderState) : HeaderStep :=
  if s.status = .gzip then
    let s := { s with adler := crc32InitialValue }.put [31, 139, 8]
    match s.gzhead with
    | none =>
      let s := s.put (leBytes 0 4 ++ [0] ++ [UInt8.ofNat s.gzipFlags, UInt8.ofNat osCode])
      { s with status := .busy }.flushAll
    | some g =>
      let s := s.putFields g
      let s := if g.hcrc ≠ 0 then { s with adler := crc32 s.adler (s.pendingFrom 0) } else s
      .ok { s with gzindex := 0, status := .extra }
  else .ok s

/-- The loop over the extra field, with `left` bytes to go; it takes a byte on each pass but the
first. With passes too few, the code would be one that `deflate` does not return. -/
def extraLoop (g : GzHead) (extra : List UInt8) : Nat → Nat → Nat → HeaderState → HeaderStep
  | 0, _, _, s => .error (.dataError, s)
  | fuel + 1, beg, left, s =>
    if s.pendingBufSize < s.pending + left then do
      let copy := s.pendingBufSize - s.pending
      let s := (s.put ((extra.drop s.gzindex).take copy)).hcrcUpdate g beg
      let s ← { s with gzindex := s.gzindex + copy }.flushAll
      extraLoop g extra fuel 0 (left - copy) s
    else
      let s := (s.put ((extra.drop s.gzindex).take left)).hcrcUpdate g beg
      .ok { s with gzindex := 0 }

/-- `EXTRA_STATE`. -/
def extraState (s : HeaderState) : HeaderStep :=
  match s.status, s.gzhead with
  | .extra, some g => do
    let s ← match g.extra with
      | none => .ok s
      | some extra =>
        let left := extra.length % 2 ^ 16 - s.gzindex
        extraLoop g extra (left + 2) s.pending left s
    .ok { s with status := .name }
  | _, _ => .ok s

/-- The loop over the bytes of a string that are left. -/
def stringLoop (g : GzHead) : Nat → List UInt8 → HeaderState → HeaderStep
  | _, [], s => .ok s
  | beg, val :: vals, s => do
    let s₁ ← (if s.pending = s.pendingBufSize then (s.hcrcUpdate g beg).flushAll else .ok s)
    let beg := if s.pending = s.pendingBufSize then 0 else beg
    let s := { s₁ with gzindex := s₁.gzindex + 1 }.put [val]
    if val ≠ 0 then stringLoop g beg vals s else .ok (s.hcrcUpdate g beg)

/-- `NAME_STATE`. -/
def nameState (s : HeaderState) : HeaderStep :=
  match s.status, s.gzhead with
  | .name, some g => do
    let s ← match g.name with
      | none => .ok s
      | some name => do
        let s ← stringLoop g s.pending ((name ++ [0]).drop s.gzindex) s
        .ok { s with gzindex := 0 }
    .ok { s with status := .comment }
  | _, _ => .ok s

/-- `COMMENT_STATE`. -/
def commentState (s : HeaderState) : HeaderStep :=
  match s.status, s.gzhead with
  | .comment, some g => do
    let s ← match g.comment with
      | none => .ok s
      | some comment => stringLoop g s.pending ((comment ++ [0]).drop s.gzindex) s
    .ok { s with status := .hcrc }
  | _, _ => .ok s

/-- `HCRC_STATE`. -/
def hcrcState (s : HeaderState) : HeaderStep :=
  match s.status, s.gzhead with
  | .hcrc, some g => do
    let s ← if g.hcrc ≠ 0 then do
        let s ← (if s.pendingBufSize < s.pending + 2 then s.flushAll else .ok s)
        .ok { s.put (leBytes s.adler 2) with adler := crc32InitialValue }
      else .ok s
    { s with status := .busy }.flushAll
  | _, _ => .ok s

/-- `deflateHeaders`. -/
def deflateHeaders (s : HeaderState) : HeaderStep := do
  let s ← s.zlibHeader
  let s ← s.gzipHeader
  let s ← s.extraState
  let s ← s.nameState
  let s ← s.commentState
  s.hcrcState

/-- `RANK`. -/
def rankOf (f : Int) : Int := f * 2 - (if 4 < f then 9 else 0)

/-- The number of a flush value. -/
def flushCode : Flush → Int
  | .noFlush => 0
  | .partialFlush => 1
  | .syncFlush => 2
  | .fullFlush => 3
  | .finish => 4
  | .block => 5
  | .trees => 6

/-- The header, where it is due; there is none for raw data. -/
def writeHeader (s : HeaderState) : Option Ret × HeaderState :=
  let s := if s.status = .init ∧ s.wrap = 0 then { s with status := .busy } else s
  if s.status ≠ .busy ∧ s.wrap ≠ 0 then HeaderStep.outcome s.deflateHeaders else (none, s)

/-- `deflate`, up to the start of compression: it returns with a code, or goes on. -/
def deflate (flush : Flush) (availIn availOut : Nat) (s : HeaderState) : Option Ret × HeaderState :=
  let s := { s with availOut := availOut }
  if flush = .trees then (some .streamError, s)
  else if availOut = 0 then (some .bufError, s)
  else
    let oldFlush := s.lastFlush
    let s := { s with lastFlush := flushCode flush }
    let pending := s.pending
    let s := if pending ≠ 0 then s.flushPending else s
    if pending ≠ 0 ∧ s.availOut = 0 then (some .ok, { s with lastFlush := -1 })
    else if pending = 0 ∧ availIn = 0 ∧ rankOf (flushCode flush) ≤ rankOf oldFlush ∧ flush ≠ .finish then
      (some .bufError, s)
    else s.writeHeader

/-- A gzip stream after `deflateInit2` and `deflateSetHeader`, on a pending buffer that holds
`buf`. -/
def start (buf : Nat → UInt8) (memLevel level strategy wBits : Nat) (g : GzHead) : HeaderState where
  status := .gzip
  wrap := 2
  level := level
  strategy := strategy
  wBits := wBits
  strstart := 0
  gzhead := some g
  gzindex := 0
  pendingBuf := buf
  pendingBufSize := 2 ^ (memLevel + 6) * 4
  pendingOut := 0
  pending := 0
  lastFlush := -2
  adler := crc32InitialValue
  availOut := 0
  out := []

/-- The streams that calls of `deflate` lead to which do not yet compress. -/
inductive Written (s₀ : HeaderState) : HeaderState → Prop
  | start : Written s₀ s₀
  | call {s s' : HeaderState} {flush : Flush} {availIn availOut : Nat} {ret : Ret}
      (h : Written s₀ s) (hcall : s.deflate flush availIn availOut = (some ret, s')) : Written s₀ s'

end HeaderState
end ZlibNg
