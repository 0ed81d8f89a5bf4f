import ZlibNg.Bits.Lanes
import ZlibNg.Trees.BlockSpec
import ZlibNg.Trees.Segment

/-! The loop of `compress_block` over the bytes of the symbol buffer, which takes up to three
literals at a time. -/
namespace ZlibNg

/-- `n` bytes of the symbol buffer from `sx` on, the lowest first. -/
def loadSyms (n : Nat) (symBuf : Nat → UInt8) (sx : Nat) : Nat := leNat (segment symBuf sx (sx + n))

/-- `LIT3_DIST1_MASK`: the distance of the second symbol in eight bytes. -/
def lit3Dist1Mask : Nat := 0x000000ffff000000

/-- The codes of the literals taken at a time, with their bits, the position after them, and the
positions that they were at. -/
structure LitRun where
  bits : Nat × Nat
  sx : Nat
  taken : List Nat

/-- `send_code_merge`, and on to the next symbol. -/
def LitRun.add (ltree : CodeTree) (c : Nat) (r : LitRun) : LitRun :=
  { bits := assemble r.bits (ltree.code c) (ltree.len c)
    sx := r.sx + 3
    taken := r.taken ++ [r.sx] }

/-- A literal, and up to two more. -/
def litRun (ltree : CodeTree) (symBuf : Nat → UInt8) (symNext sx lc : Nat) : LitRun :=
  let r : LitRun := LitRun.add ltree lc { bits := (0, 0), sx := sx, taken := [] }
  if r.sx + 8 ≤ symNext then
    let nextSyms := loadSyms 8 symBuf r.sx
    if nextSyms % 2 ^ 16 = 0 then
      let r := r.add ltree (nextSyms >>> 16 % 256)
      if nextSyms &&& lit3Dist1Mask = 0 then r.add ltree (nextSyms >>> 40 % 256) else r
    else r
  else r

/-- The position in the symbol buffer and the bit writer; and what has happened so far: the
positions of the symbols that were sent, and the bits held after each merge. -/
structure BlockLoop where
  sx : Nat
  w : BitWriter
  taken : List Nat
  held : List Nat

/-- One turn of the loop. -/
def BlockLoop.turn (ltree dtree : CodeTree) (symBuf : Nat → UInt8) (symNext : Nat) (s : BlockLoop) :
    Option BlockLoop := do
  let w ← s.w.sendBitsFlush
  let distLc := loadSyms 4 symBuf s.sx
  let dist := distLc % 2 ^ 16
  let lc := distLc >>> 16 % 256
  if dist = 0 then
    let r := litRun ltree symBuf symNext s.sx lc
    let w ← w.sendBitsMerge r.bits.1 r.bits.2
    some { sx := r.sx, w, taken := s.taken ++ r.taken, held := s.held ++ [w.biValid] }
  else
    let bits := assembleDist ltree dtree lc dist
    let w ← w.sendBitsMerge bits.1 bits.2
    some { sx := s.sx + 3, w, taken := s.taken ++ [s.sx], held := s.held ++ [w.biValid] }

/-- `do .. while (sx < sym_next)`. -/
def BlockLoop.run (ltree dtree : CodeTree) (symBuf : Nat → UInt8) (symNext : Nat) :
    Nat → BlockLoop → Option BlockLoop
  | 0, _ => none
  | fuel + 1, s => do
    let s ← s.turn ltree dtree symBuf symNext
    if s.sx < symNext then BlockLoop.run ltree dtree symBuf symNext fuel s else some s

/-- `compress_block` over the symbol buffer; every turn moves on in it. -/
def compressBytes (ltree dtree : CodeTree) (symBuf : Nat → UInt8) (symNext : Nat) (w : BitWriter) :
    Option BlockLoop := do
  let s : BlockLoop := { sx := 0, w := w, taken := [], held := [w.biValid] }
  let s ← (if symNext ≠ 0 then s.run ltree dtree symBuf symNext symNext else some s)
  let w ← s.w.sendCode ltree 256
  some { s with w := w, held := s.held ++ [w.biValid] }

/-- The buffer holds the symbols, three bytes each; nothing is said of the bytes behind them. -/
def Stores (symBuf : Nat → UInt8) (syms : List BufferedSym) : Prop :=
  ∀ i x, syms[i]? = some x → symBuf (3 * i) = UInt8.ofNat x.dist ∧
    symBuf (3 * i + 1) = UInt8.ofNat (x.dist / 256) ∧ symBuf (3 * i + 2) = UInt8.ofNat x.lc

/-- The four bytes that `zng_tr_tally_lit` and `zng_tr_tally_dist` write: three of the symbol, and
one behind it. -/
def storeSym (symBuf : Nat → UInt8) (symNext : Nat) (x : BufferedSym) : Nat → UInt8 := fun p =>
  if symNext ≤ p ∧ p < symNext + 4 then (leBytes (x.dist ||| x.lc <<< 16) 4).getD (p - symNext) 0
  else symBuf p

/-- The symbols of a block one after the other, with `sym_next` after them. -/
def storeSyms (symBuf : Nat → UInt8) (syms : List BufferedSym) : (Nat → UInt8) × Nat :=
  syms.foldl (fun s x => (storeSym s.1 s.2 x, s.2 + 3)) (symBuf, 0)

theorem Stores.push {symBuf : Nat → UInt8} {syms : List BufferedSym} (h : Stores symBuf syms)
    (x : BufferedSym) : Stores (storeSym symBuf (3 * syms.length) x) (syms ++ [x]) := by
  have hnew : ∀ k, k < 4 → storeSym symBuf (3 * syms.length) x (3 * syms.length + k) =
      (leBytes (x.dist ||| x.lc <<< 16) 4).getD k 0 := by
    intro k hk
    rw [storeSym, if_pos (by omega), Nat.add_sub_cancel_left]
  have hold : ∀ p, p < 3 * syms.length → storeSym symBuf (3 * syms.length) x p = symBuf p :=
    fun p hp => if_neg (by omega)
  have hdist := x.dist_le
  have hword : x.dist ||| x.lc <<< 16 = x.dist + 2 ^ 16 * x.lc := by
    rw [Nat.or_comm, ← Nat.shiftLeft_add_eq_or_of_lt (show x.dist < 2 ^ 16 by omega),
      Nat.shiftLeft_eq]
    omega
  intro i y hy
  by_cases hi : i < syms.length
  · rw [List.getElem?_append_left hi] at hy
    rw [hold _ (by omega), hold _ (by omega), hold _ (by omega)]
    exact h i y hy
  · obtain rfl : i = syms.length := by
      have hlt := (List.getElem?_eq_some_iff.mp hy).1
      rw [List.length_append, List.length_singleton] at hlt
      omega
    rw [List.getElem?_concat_length] at hy
    obtain rfl := Option.some.inj hy
    have hfirst := hnew 0 (by decide)
    rw [Nat.add_zero] at hfirst
    rw [hfirst, hnew 1 (by decide), hnew 2 (by decide), hword]
    have hbyte {m n : Nat} (hmn : m % 256 = n % 256) : UInt8.ofNat m = UInt8.ofNat n := by
      rw [← UInt8.toNat_inj, UInt8.toNat_ofNat', UInt8.toNat_ofNat']
      exact hmn
    have hlc := x.lc_lt
    simp only [leBytes, List.getD_cons_zero, List.getD_cons_succ, Nat.shiftRight_eq_div_pow]
    exact ⟨hbyte (by omega), hbyte (by omega), hbyte (by omega)⟩

/-- What the tally functions leave in the buffer, whatever was in it. -/
theorem storeSyms_spec (symBuf : Nat → UInt8) (syms : List BufferedSym) :
    Stores (storeSyms symBuf syms).1 syms ∧ (storeSyms symBuf syms).2 = 3 * syms.length := by
  induction syms using List.reverseRecOn with
  | nil => exact ⟨fun i x hx => (by cases hx), rfl⟩
  | append_singleton syms x ih =>
    obtain ⟨hstores, hnext⟩ := ih
    rw [storeSyms, List.foldl_append]
    refine ⟨?_, ?_⟩
    · change Stores (storeSym (storeSyms symBuf syms).1 (storeSyms symBuf syms).2 x) _
      rw [hnext]
      exact hstores.push x
    · change (storeSyms symBuf syms).2 + 3 = _
      rw [hnext, List.length_append]
      rfl

section Loads
variable {symBuf : Nat → UInt8} {syms : List BufferedSym} {i : Nat} {x y : BufferedSym}

/-- The bytes of a symbol as a number of 24 bits. -/
theorem Stores.word (h : Stores symBuf syms) (hx : syms[i]? = some x) :
    (symBuf (3 * i)).toNat + 256 * (symBuf (3 * i + 1)).toNat + 2 ^ 16 * (symBuf (3 * i + 2)).toNat =
      x.dist + 2 ^ 16 * x.lc := by
  obtain ⟨h1, h2, h3⟩ := h i x hx
  have hdist := x.dist_le
  have hlc := x.lc_lt
  rw [h1, h2, h3]
  simp only [UInt8.toNat_ofNat']
  omega

/-- The four bytes at a symbol, the last of which is not used. -/
theorem Stores.load_four (h : Stores symBuf syms) (hx : syms[i]? = some x) :
    loadSyms 4 symBuf (3 * i) % 2 ^ 16 = x.dist ∧ loadSyms 4 symBuf (3 * i) >>> 16 % 256 = x.lc := by
  have hword := h.word hx
  have hdist := x.dist_le
  have hlc := x.lc_lt
  have hload : loadSyms 4 symBuf (3 * i) =
      x.dist + 2 ^ 16 * x.lc + 2 ^ 24 * (symBuf (3 * i + 3)).toNat := by
    rw [← hword]
    simp only [loadSyms, segment, Nat.add_sub_cancel_left, List.range', List.map_cons, List.map_nil,
      leNat_cons, leNat_nil, Nat.add_assoc, Nat.reduceAdd]
    omega
  rw [hload, Nat.shiftRight_eq_div_pow]
  omega

/-- The eight bytes at a symbol, when there is another one behind it. -/
theorem Stores.load_eight (h : Stores symBuf syms) (hx : syms[i]? = some x)
    (hy : syms[i + 1]? = some y) :
    loadSyms 8 symBuf (3 * i) % 2 ^ 16 = x.dist ∧ loadSyms 8 symBuf (3 * i) >>> 16 % 256 = x.lc ∧
      (loadSyms 8 symBuf (3 * i) &&& lit3Dist1Mask = 0 ↔ y.dist = 0) ∧
      loadSyms 8 symBuf (3 * i) >>> 40 % 256 = y.lc := by
  have hword := h.word hx
  have hword' := h.word hy
  have hdist := x.dist_le
  have hlc := x.lc_lt
  have hdist' := y.dist_le
  have hlc' := y.lc_lt
  generalize hrest : (symBuf (3 * i + 6)).toNat + 256 * (symBuf (3 * i + 7)).toNat = rest
  have hload : loadSyms 8 symBuf (3 * i) =
      x.dist + 2 ^ 16 * x.lc + 2 ^ 24 * (y.dist + 2 ^ 16 * (y.lc + 2 ^ 8 * rest)) := by
    rw [show 3 * (i + 1) = 3 * i + 3 by omega] at hword'
    simp only [Nat.add_assoc, Nat.reduceAdd] at hword'
    simp only [loadSyms, segment, Nat.add_sub_cancel_left, List.range', List.map_cons, List.map_nil,
      leNat_cons, leNat_nil, Nat.add_assoc, Nat.reduceAdd]
    omega
  have hmask : loadSyms 8 symBuf (3 * i) &&& lit3Dist1Mask = 2 ^ 24 * y.dist := by
    have hlow : (y.dist + 2 ^ 16 * (y.lc + 2 ^ 8 * rest)) &&& 0xffff = y.dist := by
      rw [show 0xffff = 2 ^ 16 - 1 by rfl, Nat.and_two_pow_sub_one_eq_mod]
      omega
    rw [hload, show lit3Dist1Mask = 0 + 2 ^ 24 * 0xffff by rfl,
      and_two_pow_mul (by omega) (by decide), Nat.and_zero, Nat.zero_add, hlow]
  rw [hmask, hload]
  simp only [Nat.shiftRight_eq_div_pow]
  omega

end Loads
end ZlibNg
