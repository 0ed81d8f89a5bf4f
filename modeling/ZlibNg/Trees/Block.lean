import ZlibNg.Trees.Build
import ZlibNg.Trees.Codes
import ZlibNg.Trees.Emit
import ZlibNg.Trees.RunLength

/-! A block of symbols in trees.c: its trees and their description, the choice of its form, and
its emission. -/
namespace ZlibNg

/-- An entry of the symbol buffer: a literal, with distance zero, or a match. -/
structure BufferedSym where
  dist : Nat
  lc : Nat
  dist_le : dist ≤ 32768
  lc_lt : lc < 256

/-- The symbol buffer: it is flushed when all entries but one are in use. -/
structure SymBuf where
  litBufsize : Nat
  syms : List BufferedSym
  litBufsize_le : litBufsize ≤ 2 ^ 15
  room : syms.length < litBufsize

/-- `zng_tr_tally_lit` and `zng_tr_tally_dist`. -/
def tally (s : (Nat → Nat) × (Nat → Nat)) (x : BufferedSym) : (Nat → Nat) × (Nat → Nat) :=
  if x.dist = 0 then (addFreq s.1 x.lc 1, s.2)
  else (addFreq s.1 (zngLengthCode.getD x.lc 0 + 256 + 1) 1, addFreq s.2 (dCode (x.dist - 1)) 1)

/-- `init_block`: the end of the block is counted. -/
def initBlock : (Nat → Nat) × (Nat → Nat) := (Function.update (fun _ => 0) 256 1, fun _ => 0)

def SymBuf.freqs (b : SymBuf) : (Nat → Nat) × (Nat → Nat) := b.syms.foldl tally initBlock

/-- The lengths up to `max_code`. -/
def BuiltTree.lens (t : BuiltTree) : List Nat := (List.range (t.maxCode + 1).toNat).map t.len

/-- The codes of a tree, which replace the frequencies. -/
def BuiltTree.codeTree (t : BuiltTree) : CodeTree :=
  { code := genCodes t.lens t.blCount t.freq, len := t.len }

def blOrder : List Nat := [16, 17, 18, 0, 8, 7, 9, 6, 10, 5, 11, 4, 12, 3, 13, 2, 14, 1, 15]

/-- The last bit length code to send, from an index down to three. -/
def maxBlindex (len : Nat → Nat) : Nat → Nat
  | 0 => 0
  | i + 1 =>
    if i + 1 < 3 ∨ len (blOrder.getD (i + 1) 0) ≠ 0 then i + 1 else maxBlindex len i

/-- The trees of a block, and its bit lengths with them and with the static trees. -/
structure BlockTrees where
  l : BuiltTree
  d : BuiltTree
  bl : BuiltTree
  maxBlindex : Nat
  optLen : Int
  staticLen : Int

/-- `build_bl_tree`. -/
def buildBlTree (dl : Nat → Nat) (l d : BuiltTree) : Option BlockTrees := do
  let freq := scanTree d.lens (scanTree l.lens fun _ => 0)
  let bl ← buildTree TreeKind.bitLength.desc freq dl d.optLen d.staticLen
  let maxBlindex := maxBlindex bl.len 18
  some { l, d, bl, maxBlindex
         optLen := bl.optLen + (3 * (maxBlindex + 1) + 5 + 5 + 4 : Nat)
         staticLen := bl.staticLen }

/-- The three trees of a block; `dl` is what the last block left in them. -/
def buildTrees (dl : TreeKind → Nat → Nat) (freqs : (Nat → Nat) × (Nat → Nat)) :
    Option BlockTrees := do
  let l ← buildTree TreeKind.literal.desc freqs.1 (dl .literal) 0 0
  let d ← buildTree TreeKind.distance.desc freqs.2 (dl .distance) l.optLen l.staticLen
  buildBlTree (dl .bitLength) l d

namespace BitWriter

/-- The bits written so far. -/
def total (w : BitWriter) : Nat := 8 * w.pending.length + w.biValid

/-- `send_code`. -/
def sendCode (tree : CodeTree) (c : Nat) (w : BitWriter) : Option BitWriter :=
  w.sendBits (tree.code c) (tree.len c)

/-- The symbols of `send_tree`. -/
def sendLens (bl : CodeTree) (syms : List LenSym) (w : BitWriter) : Option BitWriter :=
  syms.foldlM (fun w x => do
    let w ← w.sendCode bl x.sym
    if x.extraBits = 0 then some w else w.sendBits x.extra x.extraBits) w

/-- `send_all_trees`. -/
def sendAllTrees (t : BlockTrees) (w : BitWriter) : Option BitWriter := do
  let w ← w.sendBits (t.l.lens.length - 257) 5
  let w ← w.sendBits (t.d.lens.length - 1) 5
  let w ← w.sendBits (t.maxBlindex + 1 - 4) 4
  let w ← (List.range (t.maxBlindex + 1)).foldlM
    (fun w rank => w.sendBits (t.bl.len (blOrder.getD rank 0)) 3) w
  let w ← w.sendLens t.bl.codeTree (sendTree t.l.lens)
  w.sendLens t.bl.codeTree (sendTree t.d.lens)

/-- How many of the next symbols are literals merged with the one before. -/
def nextLiterals : List BufferedSym → Nat
  | x :: y :: _ :: _ => if x.dist = 0 then if y.dist = 0 then 2 else 1 else 0
  | _ => 0

/-- The bits of one symbol, put above those assembled. -/
def assembleLit (ltree : CodeTree) (s : Nat × Nat) (x : BufferedSym) : Nat × Nat :=
  assemble s (ltree.code x.lc) (ltree.len x.lc)

/-- The loop of `compress_block`. -/
def compressLoop (ltree dtree : CodeTree) : List BufferedSym → BitWriter → Option BitWriter
  | [], w => some w
  | x :: rest, w => do
    let w ← w.sendBitsFlush
    if x.dist = 0 then
      let more := nextLiterals rest
      let bits := (x :: rest.take more).foldl (assembleLit ltree) (0, 0)
      compressLoop ltree dtree (rest.drop more) (← w.sendBitsMerge bits.1 bits.2)
    else
      let bits := assembleDist ltree dtree x.lc x.dist
      compressLoop ltree dtree rest (← w.sendBitsMerge bits.1 bits.2)
termination_by syms => syms.length
decreasing_by
  · simp only [List.length_drop, List.length_cons]
    omega
  · exact Nat.lt_succ_self _

/-- `compress_block`, with the end of the block. -/
def compressBlock (ltree dtree : CodeTree) (syms : List BufferedSym) (w : BitWriter) :
    Option BitWriter := do
  (← w.compressLoop ltree dtree syms).sendCode ltree 256

/-- `zng_tr_emit_tree`. -/
def emitTree (type : Nat) (last : Bool) (w : BitWriter) : Option BitWriter :=
  w.sendBits (type <<< 1 + last.toNat) 3

/-- `zng_tr_stored_block`. -/
def storedBlock (buf : List UInt8) (storedLen : Nat) (last : Bool) (w : BitWriter) :
    Option BitWriter := do
  let w := (← w.emitTree 0 last).biWindup
  let w := (w.put 2 storedLen).put 2 (2 ^ 32 - 1 - storedLen)
  some { w with pending := w.pending ++ buf.take storedLen }

end BitWriter

/-- The trees in `trees_tbl.h`. -/
def staticLcodes : CodeTree :=
  { code := genCodes staticLtree (fun len => staticLtree.count len) fun _ => 0
    len := fun n => staticLtree.getD n 0 }

def staticDcodes : CodeTree :=
  { code := genCodes staticDtree (fun len => staticDtree.count len) fun _ => 0
    len := fun n => staticDtree.getD n 0 }

inductive BlockForm
  | stored
  | static
  | dynamic
  deriving DecidableEq

/-- What `zng_tr_flush_block` is given: the input, if it is still there, and the settings. -/
structure FlushArgs where
  buf : Option (List UInt8)
  storedLen : Nat
  last : Bool
  level : Nat
  fixed : Bool

/-- The form taken, from the lengths in bytes. -/
def FlushArgs.form (a : FlushArgs) (optLenb staticLenb : Int) : BlockForm :=
  if a.storedLen + 4 ≤ optLenb ∧ a.buf.isSome then .stored
  else if staticLenb = optLenb then .static
  else .dynamic

/-- The form of a block, its bit lengths, and the writer at its end and after the alignment. -/
structure Flushed where
  form : BlockForm
  optLen : Int
  staticLen : Int
  block : BitWriter
  writer : BitWriter

/-- The block in the form taken. -/
def FlushArgs.emit (a : FlushArgs) (form : BlockForm) (syms : List BufferedSym)
    (trees : Option BlockTrees) (w : BitWriter) : Option BitWriter :=
  match form with
  | .stored => w.storedBlock (a.buf.getD []) a.storedLen a.last
  | .static => do (← w.emitTree 1 a.last).compressBlock staticLcodes staticDcodes syms
  | .dynamic => do
    let t ← trees
    let w ← (← w.emitTree 2 a.last).sendAllTrees t
    w.compressBlock t.l.codeTree t.d.codeTree syms

/-- `zng_tr_flush_block`. -/
def trFlushBlock (a : FlushArgs) (b : SymBuf) (dl : TreeKind → Nat → Nat) (w : BitWriter) :
    Option Flushed := do
  let (trees, optLen, staticLen, optLenb, staticLenb) :
      Option BlockTrees × Int × Int × Int × Int ←
    if b.syms.length = 0 then some (none, 0, 7, 0, 0)
    else if 0 < a.level then do
      let t ← buildTrees dl b.freqs
      let optLenb := (t.optLen + 3 + 7) / 8
      let staticLenb := (t.staticLen + 3 + 7) / 8
      some (some t, t.optLen, t.staticLen,
        if staticLenb ≤ optLenb ∨ a.fixed then staticLenb else optLenb, staticLenb)
    else some (none, 0, 0, a.storedLen + 5, a.storedLen + 5)
  let form := a.form optLenb staticLenb
  let block ← a.emit form b.syms trees w
  some { form, optLen, staticLen, block, writer := if a.last then block.biWindup else block }

end ZlibNg
