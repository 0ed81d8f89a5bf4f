import ZlibNg.Inflate.Fixed
import ZlibNg.Bits.Program
import ZlibNg.Checksum.Update

/-! The state of an inflate stream. -/
namespace ZlibNg

/-- `inflate_mode`. -/
inductive Mode
  | head | flags | time | os | exlen | extra | name | comment | hcrc | dictid | dict
  | type | typedo | stored | copy_ | copy | table | lenlens | codelens
  | len_ | len | lenext | dist | distext | match_ | lit
  | check | length | done | bad | sync
  deriving DecidableEq, Repr

/-- Position in the enumeration, as the comparisons of modes use it. -/
def Mode.index (m : Mode) : Nat := m.ctorIdx

/-- `gz_header`, as inflate fills it; a buffer is `none` for a null pointer. -/
structure GzHeader where
  text : Nat
  time : Nat
  xflags : Nat
  os : Nat
  extra : Option (Nat → UInt8)
  extraLen : Nat
  extraMax : Nat
  name : Option (Nat → UInt8)
  nameMax : Nat
  comment : Option (Nat → UInt8)
  commMax : Nat
  hcrc : Nat
  done : Int

/-- `inflate_state`, with the fields of the stream that the cases write; the tables are held by
value. -/
structure InflateState where
  mode : Mode
  last : Bool
  wrap : Nat
  havedict : Bool
  flags : UInt32
  was : Nat
  check : Nat
  total : Nat
  head : Option GzHeader
  back : Int
  wbits : Nat
  wsize : Nat
  whave : Nat
  wnext : Nat
  window : Nat → UInt8
  lenbits : Nat
  lencode : Nat → Code
  distbits : Nat
  distcode : Nat → Code
  length : Nat
  offset : Nat
  extra : Nat
  ncode : Nat
  nlen : Nat
  ndist : Nat
  have_ : Nat
  lens : Nat → Nat
  msg : Option String
  adler : Nat

inductive Flush
  | noFlush | partialFlush | syncFlush | fullFlush | finish | block | trees
  deriving DecidableEq, Repr

/-- Return codes. -/
inductive Ret
  | ok | streamEnd | needDict | streamError | dataError | bufError
  deriving DecidableEq, Repr

namespace InflateState

/-- `SET_BAD`. -/
abbrev setBad (s : InflateState) (errmsg : String) : InflateState :=
  { s with mode := .bad, msg := some errmsg }

/-- `inf_chksum`: hash output bytes. -/
def infChksum (s : InflateState) (src : List UInt8) : InflateState :=
  let check := if s.flags ≠ 0 then crc32 s.check src else adler32 s.check src
  { s with adler := check, check := check }

/-- `inf_chksum_cpy`, without the copy. -/
def infChksumCpy (s : InflateState) (src : List UInt8) : InflateState :=
  if src.length = 0 then s else s.infChksum src

/-- Hash header bytes, when the header has a check. -/
def headerCheck (s : InflateState) (bytes : List UInt8) : InflateState :=
  if s.flags &&& 0x0200 ≠ 0 ∧ s.wrap &&& 4 ≠ 0 then { s with check := crc32 s.check bytes } else s

/-- Change the header structure, if there is one. -/
abbrev withHead (s : InflateState) (f : GzHeader → GzHeader) : InflateState :=
  { s with head := s.head.map f }

/-- `fixedtables`. -/
def fixedtables (s : InflateState) : InflateState :=
  { s with
    lencode := fun i => lenfix.getD i default
    lenbits := 9
    distcode := fun i => distfix.getD i default
    distbits := 5 }

end InflateState
end ZlibNg
