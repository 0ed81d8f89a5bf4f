import Mathlib.Algebra.BigOperators.Group.List.Basic
import Mathlib.Logic.Function.Basic

/-! The construction of a Huffman tree in trees.c: the radix sort of the leaves, the merges from
two queues, and the bit lengths with their repair. -/
namespace ZlibNg

/-- `static_tree_desc`: the lengths of the static tree, if there is one, and the extra bits. -/
structure StaticTreeDesc where
  staticTree : Option (List Nat)
  extraBits : List Nat
  extraBase : Nat
  elems : Nat
  maxLength : Nat

def staticLtree : List Nat :=
  List.replicate 144 8 ++ List.replicate 112 9 ++ List.replicate 24 7 ++ List.replicate 8 8

def staticDtree : List Nat := List.replicate 30 5

def extraLbits : List Nat :=
  [0, 0, 0, 0, 0, 0, 0, 0, 1, 1, 1, 1, 2, 2, 2, 2, 3, 3, 3, 3, 4, 4, 4, 4, 5, 5, 5, 5, 0]

def extraDbits : List Nat :=
  [0, 0, 0, 0, 1, 1, 2, 2, 3, 3, 4, 4, 5, 5, 6, 6, 7, 7, 8, 8, 9, 9, 10, 10, 11, 11, 12, 12, 13, 13]

def extraBlbits : List Nat := [0, 0, 0, 0, 0, 0, 0, 0, 0, 0, 0, 0, 0, 0, 0, 0, 2, 3, 7]

/-- The trees: literals and lengths, distances, and bit lengths. -/
inductive TreeKind where
  | literal | distance | bitLength
  deriving DecidableEq, Repr

/-- `static_l_desc`, `static_d_desc` and `static_bl_desc`. -/
def TreeKind.desc : TreeKind → StaticTreeDesc
  | .literal => { staticTree := some staticLtree, extraBits := extraLbits, extraBase := 257,
                  elems := 286, maxLength := 15 }
  | .distance => { staticTree := some staticDtree, extraBits := extraDbits, extraBase := 0,
                   elems := 30, maxLength := 15 }
  | .bitLength => { staticTree := none, extraBits := extraBlbits, extraBase := 0, elems := 19,
                    maxLength := 7 }

/-- The length of a symbol in the static tree; nothing is counted without one. -/
def StaticTreeDesc.staticLen (desc : StaticTreeDesc) (n : Nat) : Nat :=
  (desc.staticTree.getD []).getD n 0

def pqNodeBits : Nat := 10
def pqPack (freq node : Nat) : Nat := freq <<< pqNodeBits ||| node
def pqNode (e : Nat) : Nat := e % 2 ^ pqNodeBits
def pqFreq (e : Nat) : Nat := e >>> pqNodeBits

/-- One placement of `pq_radix_pass`. -/
def radixStep (shift : Nat) (s : (Nat → Nat) × (Nat → Nat)) (e : Nat) :
    (Nat → Nat) × (Nat → Nat) :=
  let digit := (e >>> shift) % 256
  (Function.update s.1 digit (s.1 digit + 1), Function.update s.2 (s.1 digit) e)

/-- The running start positions, from the histogram at offset one. -/
def radixStarts (count : Nat → Nat) : Nat → Nat :=
  (List.range 256).foldl (fun count i => Function.update count (i + 1) (count (i + 1) + count i))
    count

/-- `pq_radix_pass`. -/
def pqRadixPass (src : List Nat) (shift : Nat) (count : Nat → Nat) : List Nat :=
  (List.range src.length).map (src.foldl (radixStep shift) (radixStarts count, fun _ => 0)).2

/-- `pq_take`: the smaller head, and the queues after it. -/
def pqTake (leaves internals : List Nat) : Nat × List Nat × List Nat :=
  match leaves, internals with
  | leaf :: leaves, [] => (leaf, leaves, [])
  | leaf :: leaves, internal :: internals =>
    if leaf < internal then (leaf, leaves, internal :: internals)
    else (internal, leaf :: leaves, internals)
  | [], internal :: internals => (internal, [], internals)
  -- the queues of `build_tree` never run out
  | [], [] => (0, [], [])

/-- The scan of the frequencies: the leaves, the histograms of the two frequency bytes, the
largest code, and the frequencies and lengths of the tree. -/
structure TreeScan where
  leaves : List Nat
  countLo : Nat → Nat
  countHi : Nat → Nat
  maxCode : Int
  freq : Nat → Nat
  dl : Nat → Nat
  optLen : Int
  staticLen : Int

def TreeScan.step (s : TreeScan) (n : Nat) : TreeScan :=
  let freq := s.freq n
  if freq ≠ 0 then
    { s with
      leaves := s.leaves ++ [pqPack freq n]
      countLo := Function.update s.countLo (freq % 256 + 1) (s.countLo (freq % 256 + 1) + 1)
      countHi := Function.update s.countHi (freq >>> 8 + 1) (s.countHi (freq >>> 8 + 1) + 1)
      maxCode := n }
  else { s with dl := Function.update s.dl n 0 }

/-- Force a code of frequency one: the next one of the first three, or the first one. -/
def TreeScan.forceOne (desc : StaticTreeDesc) (s : TreeScan) : TreeScan :=
  let maxCode := if s.maxCode < 2 then s.maxCode + 1 else s.maxCode
  let node := if s.maxCode < 2 then (s.maxCode + 1).toNat else 0
  { s with
    maxCode := maxCode
    leaves := s.leaves ++ [pqPack 1 node]
    freq := Function.update s.freq node 1
    optLen := s.optLen - 1
    staticLen := s.staticLen - desc.staticLen node }

/-- At least two codes of non-zero frequency are forced. -/
def TreeScan.force (desc : StaticTreeDesc) (s : TreeScan) : TreeScan :=
  if s.leaves.length < 2 then TreeScan.force desc (s.forceOne desc) else s
termination_by 2 - s.leaves.length
decreasing_by
  simp only [TreeScan.forceOne, List.length_append, List.length_singleton]
  omega

/-- The leaves by packed entry. -/
def TreeScan.sorted (s : TreeScan) : List Nat :=
  if s.leaves.length = 2 then
    match s.leaves with
    | [a, b] => if a > b then [b, a] else [a, b]
    | leaves => leaves
  else if s.countHi 1 = s.leaves.length then pqRadixPass s.leaves pqNodeBits s.countLo
  else pqRadixPass (pqRadixPass s.leaves pqNodeBits s.countLo) (pqNodeBits + 8) s.countHi

/-- The queues and the tree under construction: `dl` has the dads, which the lengths overwrite
later. -/
structure MergeState where
  leaves : List Nat
  internals : List Nat
  node : Nat
  freq : Nat → Nat
  dl : Nat → Nat

/-- Combine the two least frequent nodes. -/
def MergeState.step (s : MergeState) : MergeState :=
  let en := pqTake s.leaves s.internals
  let em := pqTake en.2.1 en.2.2
  let n := pqNode en.1
  let m := pqNode em.1
  let f := (pqFreq en.1 + pqFreq em.1) % 2 ^ 16
  { leaves := em.2.1
    internals := em.2.2 ++ [pqPack f s.node]
    node := s.node + 1
    freq := Function.update s.freq s.node f
    dl := Function.update (Function.update s.dl m s.node) n s.node }

def MergeState.run : Nat → MergeState → MergeState
  | 0, s => s
  | merges + 1, s => MergeState.run merges s.step

/-- A length one more than that of the dad, at most `maxLength`; and the overflow so far. -/
def bitlenStep (maxLength : Nat) (s : (Nat → Nat) × Nat) (n : Nat) : (Nat → Nat) × Nat :=
  let bits := s.1 (s.1 n) + 1
  if maxLength < bits then (Function.update s.1 n maxLength, s.2 + 1)
  else (Function.update s.1 n bits, s.2)

/-- The internal nodes from `elems + k - 1` down to `elems`. -/
def bitlenNodes (elems maxLength : Nat) : Nat → (Nat → Nat) × Nat → (Nat → Nat) × Nat
  | 0, s => s
  | k + 1, s => bitlenNodes elems maxLength k (bitlenStep maxLength s (elems + k))

/-- The lengths so far, the overflow, the counts of the lengths, and the bit lengths of the
block. -/
structure BitlenState where
  dl : Nat → Nat
  overflow : Nat
  blCount : Nat → Nat
  optLen : Int
  staticLen : Int

/-- The length of one leaf. -/
def BitlenState.leaf (desc : StaticTreeDesc) (freq : Nat → Nat) (s : BitlenState) (e : Nat) :
    BitlenState :=
  let n := pqNode e
  let (dl, overflow) := bitlenStep desc.maxLength (s.dl, s.overflow) n
  let bits := dl n
  let xbits := if desc.extraBase ≤ n then desc.extraBits.getD (n - desc.extraBase) 0 else 0
  { dl := dl
    overflow := overflow
    blCount := Function.update s.blCount bits (s.blCount bits + 1)
    optLen := s.optLen + freq n * (bits + xbits)
    staticLen := if desc.staticTree.isSome then s.staticLen + freq n * (desc.staticLen n + xbits)
      else s.staticLen }

/-- The longest length below that has a code; `none` when the search leaves the array. -/
def nextShorter (blCount : Nat → Nat) : Nat → Option Nat
  | 0 => if blCount 0 = 0 then none else some 0
  | bits + 1 => if blCount (bits + 1) = 0 then nextShorter blCount bits else some (bits + 1)

/-- `bl_count[bits]--`; `none` when the count would go negative. -/
def decrement (blCount : Nat → Nat) (bits : Nat) : Option (Nat → Nat) :=
  if blCount bits = 0 then none else some (Function.update blCount bits (blCount bits - 1))

/-- One leaf moves down the tree, and an overflow item becomes its brother. -/
def repairStep (maxLength : Nat) (blCount : Nat → Nat) : Option (Nat → Nat) := do
  let bits ← nextShorter blCount (maxLength - 1)
  let blCount ← decrement blCount bits
  let blCount := Function.update blCount (bits + 1) (blCount (bits + 1) + 2)
  decrement blCount maxLength

/-- `do .. while (overflow > 0)`. -/
def repairLoop (maxLength : Nat) (overflow : Nat) (blCount : Nat → Nat) : Option (Nat → Nat) :=
  (repairStep maxLength blCount).bind fun blCount =>
    if 2 < overflow then repairLoop maxLength (overflow - 2) blCount else some blCount
termination_by overflow

/-- The lengths of the next leaves in increasing frequency. -/
def recomputeStep (freq : Nat → Nat) (bits : Nat) (s : (Nat → Nat) × Int) (e : Nat) :
    (Nat → Nat) × Int :=
  let m := pqNode e
  if s.1 m ≠ bits then
    (Function.update s.1 m bits, s.2 + (bits * freq m : Nat) - (s.1 m * freq m : Nat))
  else s

/-- All bit lengths again, from the longest one down. -/
def recompute (freq blCount : Nat → Nat) : Nat → List Nat → (Nat → Nat) × Int → (Nat → Nat) × Int
  | 0, _, s => s
  | bits + 1, sorted, s =>
    recompute freq blCount bits (sorted.drop (blCount (bits + 1)))
      ((sorted.take (blCount (bits + 1))).foldl (recomputeStep freq (bits + 1)) s)

/-- `gen_bitlen`. -/
def genBitlen (desc : StaticTreeDesc) (sorted : List Nat) (root : Nat) (freq dl : Nat → Nat)
    (optLen staticLen : Int) : Option BitlenState :=
  let r := bitlenNodes desc.elems desc.maxLength (root - desc.elems) (Function.update dl root 0, 0)
  let s := sorted.foldl (BitlenState.leaf desc freq)
    { dl := r.1, overflow := r.2, blCount := fun _ => 0, optLen := optLen, staticLen := staticLen }
  if s.overflow = 0 then some s
  else (repairLoop desc.maxLength s.overflow s.blCount).map fun blCount =>
    let r := recompute freq blCount desc.maxLength sorted (s.dl, s.optLen)
    { s with dl := r.1, blCount := blCount, optLen := r.2 }

/-- What `build_tree` leaves of the tree: the frequencies, the lengths, and the largest code. -/
structure BuiltTree where
  freq : Nat → Nat
  len : Nat → Nat
  maxCode : Int
  overflow : Nat
  blCount : Nat → Nat
  optLen : Int
  staticLen : Int

/-- `build_tree`, up to `gen_codes`. -/
def buildTree (desc : StaticTreeDesc) (freq dl : Nat → Nat) (optLen staticLen : Int) :
    Option BuiltTree :=
  let scan := ((List.range desc.elems).foldl TreeScan.step
    { leaves := [], countLo := fun _ => 0, countHi := fun _ => 0, maxCode := -1, freq := freq,
      dl := dl, optLen := optLen, staticLen := staticLen }).force desc
  let sorted := scan.sorted
  let merged := MergeState.run (scan.leaves.length - 1)
    { leaves := sorted, internals := [], node := desc.elems, freq := scan.freq, dl := scan.dl }
  (genBitlen desc sorted (merged.node - 1) merged.freq merged.dl scan.optLen scan.staticLen).map
    fun s => { freq := merged.freq, len := s.dl, maxCode := scan.maxCode, overflow := s.overflow,
               blCount := s.blCount, optLen := s.optLen, staticLen := s.staticLen }

end ZlibNg
