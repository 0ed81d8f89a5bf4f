import ZlibNg.Bits.Reverse

/-! The decoding tables of inftrees.c: entries, and the construction of a two-level table
from a vector of code lengths. -/
namespace ZlibNg

/-- A table entry, `code` of inftrees.h. -/
structure Code where
  bits : Nat
  op : Nat
  val : Nat
  deriving DecidableEq, Repr, Inhabited

/-- `CODE_BITS`: the size of the code itself. -/
def Code.codeBits (here : Code) : Nat :=
  if here.op &&& 16 ≠ 0 then here.op &&& 15 else here.bits

/-- `CODE_EXTRA`: the number of extra bits after the code. -/
def Code.codeExtra (here : Code) : Nat :=
  if here.op &&& 16 ≠ 0 then here.bits - (here.op &&& 15) else 0

/-- `codetype`. -/
inductive CodeType where
  | codes | lens | dists
  deriving DecidableEq, Repr

def maxBits : Nat := 15
def enoughLens : Nat := 1332
def enoughDists : Nat := 592

def lbase : List Nat :=
  [3, 4, 5, 6, 7, 8, 9, 10, 11, 13, 15, 17, 19, 23, 27, 31,
   35, 43, 51, 59, 67, 83, 99, 115, 131, 163, 195, 227, 258, 0, 0]

def lext : List Nat :=
  [16, 16, 16, 16, 16, 16, 16, 16, 17, 17, 17, 17, 18, 18, 18, 18,
   19, 19, 19, 19, 20, 20, 20, 20, 21, 21, 21, 21, 16, 199, 75]

def dbase : List Nat :=
  [1, 2, 3, 4, 5, 7, 9, 13, 17, 25, 33, 49, 65, 97, 129, 193,
   257, 385, 513, 769, 1025, 1537, 2049, 3073, 4097, 6145,
   8193, 12289, 16385, 24577, 0, 0]

def dext : List Nat :=
  [16, 16, 16, 16, 17, 17, 18, 18, 19, 19, 20, 20, 21, 21, 22, 22,
   23, 23, 24, 24, 25, 25, 26, 26, 27, 27, 28, 28, 29, 29, 64, 64]

/-- `COMBINE_OP`. -/
def combineOp (extra codeBits : Nat) : Nat :=
  if extra &&& 16 ≠ 0 then (codeBits ||| 16) % 256 else extra

/-- `COMBINE_BITS`. -/
def combineBits (codeBits extra : Nat) : Nat := (codeBits + (extra &&& 15)) % 256

/-- First symbol that takes its value from the base and extra tables. -/
def CodeType.matchSym : CodeType → Nat
  | .codes => 20
  | .lens => 257
  | .dists => 0

def CodeType.base : CodeType → List Nat
  | .codes => []
  | .lens => lbase
  | .dists => dbase

def CodeType.extra : CodeType → List Nat
  | .codes => []
  | .lens => lext
  | .dists => dext

/-- The check against the space reserved in `codes`. -/
def CodeType.notEnough : CodeType → Nat → Bool
  | .codes, _ => false
  | .lens, used => used > enoughLens
  | .dists, used => used > enoughDists

/-- The entry for a symbol whose code has `bits` bits in the current table. -/
def entryFor (type : CodeType) (symbol bits : Nat) : Code :=
  if type.matchSym ≤ symbol then
    let op := type.extra.getD (symbol - type.matchSym) 0
    { op := combineOp op bits, bits := combineBits bits op,
      val := type.base.getD (symbol - type.matchSym) 0 }
  else if symbol + 1 < type.matchSym then { op := 0, bits := bits, val := symbol }
  else { op := 32 + 64, bits := bits, val := 0 }

/-- `count_lengths`. -/
def countLengths (lens : List Nat) (len : Nat) : Nat := lens.count len

/-- Largest of the lengths `1..n` in use, zero if there is none. -/
def maxLength (count : Nat → Nat) : Nat → Nat
  | 0 => 0
  | n + 1 => if count (n + 1) ≠ 0 then n + 1 else maxLength count n

/-- Smallest length from `min` on that is in use, at most `max`. -/
def minLength (count : Nat → Nat) (max : Nat) : Nat → Nat → Nat
  | 0, min => min
  | fuel + 1, min => if min < max ∧ count min = 0 then minLength count max fuel (min + 1) else min

/-- Codes of length `n` left over by the shorter ones, `none` when over-subscribed. -/
def codesLeft (count : Nat → Nat) : Nat → Option Nat
  | 0 => some 1
  | n + 1 => (codesLeft count n).bind fun left =>
      if left * 2 < count (n + 1) then none else some (left * 2 - count (n + 1))

/-- `offs`: where the symbols of each length start in the sorted table. -/
def offsets (count : Nat → Nat) : Nat → Nat
  | 0 => 0
  | 1 => 0
  | len + 2 => offsets count (len + 1) + count (len + 1)

/-- One step of the counting sort, on `offs` and `work`. -/
def sortStep (lens : List Nat) (s : (Nat → Nat) × (Nat → Nat)) (sym : Nat) :
    (Nat → Nat) × (Nat → Nat) :=
  let len := lens.getD sym 0
  if len ≠ 0 then
    (Function.update s.1 len (s.1 len + 1), Function.update s.2 (s.1 len) sym)
  else s

/-- `work`: the symbols in use, by length and then by value. -/
def sortSymbols (lens : List Nat) : Nat → Nat :=
  ((List.range lens.length).foldl (sortStep lens) (offsets (countLengths lens), fun _ => 0)).2

/-- The replication loop unrolled by four; returns what is left to fill. -/
def replicate4 (here : Code) (base incr : Nat) : Nat → Nat → (Nat → Code) → Nat × (Nat → Code)
  | 0, fill, table => (fill, table)
  | fuel + 1, fill, table =>
    if incr <<< 2 ≤ fill then
      let table := Function.update table (base + (fill - 1 * incr)) here
      let table := Function.update table (base + (fill - 2 * incr)) here
      let table := Function.update table (base + (fill - 3 * incr)) here
      let table := Function.update table (base + (fill - 4 * incr)) here
      replicate4 here base incr fuel (fill - incr <<< 2) table
    else (fill, table)

def replicate1 (here : Code) (base incr : Nat) : Nat → Nat → (Nat → Code) → (Nat → Code)
  | 0, _, table => table
  | fuel + 1, fill, table =>
    if fill ≠ 0 then
      let fill := fill - incr
      replicate1 here base incr fuel fill (Function.update table (base + fill) here)
    else table

/-- Replicate an entry at stride `incr` over `fill` slots from `base`. -/
def replicateEntry (here : Code) (base incr fill : Nat) (table : Nat → Code) : Nat → Code :=
  let r := replicate4 here base incr fill fill table
  replicate1 here base incr r.1 r.1 r.2

/-- Index bits of the next sub-table, by looking ahead in the counts. -/
def subTableBits (count : Nat → Nat) (drop max : Nat) : Nat → Nat → Int → Nat
  | 0, curr, _ => curr
  | fuel + 1, curr, left =>
    if curr + drop < max then
      let left := left - count (curr + drop)
      if left ≤ 0 then curr else subTableBits count drop max fuel (curr + 1) (left * 2)
    else curr

/-- The variables of the table-filling loop. -/
structure FillState where
  rhuff : Nat
  huff : Nat
  sym : Nat
  len : Nat
  next : Nat
  curr : Nat
  drop : Nat
  low : Nat
  used : Nat
  count : Nat → Nat
  table : Nat → Code

/-- Enter the current symbol and go to the next code of the same length. -/
def FillState.write (type : CodeType) (work : Nat → Nat) (s : FillState) : FillState :=
  let here := entryFor type (work s.sym) (s.len - s.drop)
  let rhuff := (s.rhuff + 0x8000 >>> (s.len - 1)) % 2 ^ 16
  { s with
    table := replicateEntry here (s.next + s.huff >>> s.drop) (1 <<< (s.len - s.drop))
      (1 <<< s.curr) s.table
    rhuff := rhuff
    huff := zngBitreverse16 rhuff
    sym := s.sym + 1
    count := Function.update s.count s.len (s.count s.len - 1) }

/-- Enter the current symbol, step to the next code and find its length; the flag says
that the last symbol has been entered. -/
def FillState.enter (type : CodeType) (lens : List Nat) (work : Nat → Nat) (max : Nat)
    (s : FillState) : Bool × FillState :=
  let s := s.write type work
  if s.count s.len = 0 then
    if s.len = max then (true, s)
    else (false, { s with len := lens.getD (work s.sym) 0 })
  else (false, s)

/-- Start a sub-table for the current code; the caller checks the space. -/
def FillState.subTable (root max : Nat) (s : FillState) : FillState :=
  let drop := if s.drop = 0 then root else s.drop
  let next := s.next + 1 <<< s.curr
  let curr := subTableBits s.count drop max 16 (s.len - drop) (1 <<< (s.len - drop) : Nat)
  let low := s.huff &&& (1 <<< root - 1)
  { s with
    drop := drop
    next := next
    curr := curr
    used := s.used + 1 <<< curr
    low := low
    table := Function.update s.table low { op := curr % 256, bits := root % 256, val := next % 2 ^ 16 } }

/-- The loop over all codes; `Except.error 1` when the space does not suffice. There is a turn for
every code, and `Except.error 2`, which the source has not, would be one too few. -/
def fillTable (type : CodeType) (lens : List Nat) (work : Nat → Nat) (root max : Nat) :
    Nat → FillState → Except Int FillState
  | 0, _ => .error 2
  | fuel + 1, s =>
    match s.enter type lens work max with
    | (true, s) => .ok s
    | (false, s) =>
      if root < s.len ∧ s.huff &&& (1 <<< root - 1) ≠ s.low then
        let s := s.subTable root max
        if type.notEnough s.used then .error 1 else fillTable type lens work root max fuel s
      else fillTable type lens work root max fuel s

/-- A finished decoding table: its entries, its root index bits and the entries it takes. -/
structure DecodeTable where
  entry : Nat → Code
  bits : Nat
  used : Nat

def invalidCode (bits : Nat) : Code := { op := 64, bits := bits, val := 0 }

/-- `zng_inflate_table`, with the requested root index bits; the error is the return value. -/
def zngInflateTable (type : CodeType) (lens : List Nat) (bits : Nat) : Except Int DecodeTable :=
  let count := countLengths lens
  let max := maxLength count maxBits
  let root := min bits max
  if max = 0 then
    .ok { entry := Function.update (Function.update (fun _ => default) 0 (invalidCode 1)) 1
            (invalidCode 1), bits := 1, used := 2 }
  else
    let min := minLength count max maxBits 1
    let root := Nat.max root min
    match codesLeft count maxBits with
    | none => .error (-1)
    | some left =>
      if 0 < left ∧ (type = .codes ∨ max ≠ 1) then .error (-1)
      else
        let work := sortSymbols lens
        let used := 1 <<< root
        if type.notEnough used then .error 1
        else
          match fillTable type lens work root max lens.length
            { rhuff := 0, huff := 0, sym := 0, len := min, next := 0, curr := root, drop := 0,
              low := 2 ^ 32 - 1, used := used, count := count, table := fun _ => default } with
          | .error e => .error e
          | .ok s =>
            let table := if s.huff ≠ 0 then
              Function.update s.table (s.next + s.huff) (invalidCode (s.len - s.drop)) else s.table
            .ok { entry := table, bits := root, used := s.used }

end ZlibNg
