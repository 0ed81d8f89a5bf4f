import ZlibNg.Trees.Counts
import ZlibNg.Trees.SymBytes

/-! Literals taken up to three at a time give the bits of the symbols taken one at a time: every
symbol of the buffer is sent once, and nothing behind the last one. -/
namespace ZlibNg

/-- A tree whose codes have their lengths. -/
structure CodeTree.Proper (tree : CodeTree) (elems : Nat) : Prop extends tree.Short elems where
  lt : ∀ n < elems, tree.code n < 2 ^ tree.len n

/-- The code of a symbol, with its extra bits, and its length. -/
def BufferedSym.code (ltree dtree : CodeTree) (x : BufferedSym) : Nat × Nat :=
  if x.dist = 0 then (ltree.code x.lc, ltree.len x.lc) else assembleDist ltree dtree x.lc x.dist

/-- The bits of the symbols behind those of a stream, in order. -/
def sentSyms (ltree dtree : CodeTree) (t : BitStream) (syms : List BufferedSym) : BitStream :=
  syms.foldl (fun t x => t.append
    (BitStream.ofNat (x.code ltree dtree).1 (x.code ltree dtree).2)) t

namespace BitWriter

/-- One symbol, without a look at the ones behind it. -/
def sendSym (ltree dtree : CodeTree) (w : BitWriter) (x : BufferedSym) : Option BitWriter := do
  let w ← w.sendBitsFlush
  w.sendBitsMerge (x.code ltree dtree).1 (x.code ltree dtree).2

/-- `compress_block` as it is compiled without the look-ahead. -/
def sendSyms (ltree dtree : CodeTree) (syms : List BufferedSym) (w : BitWriter) :
    Option BitWriter := do
  (← syms.foldlM (sendSym ltree dtree) w).sendCode ltree 256

end BitWriter

theorem nextLiterals_of_short {xs : List BufferedSym} (h : xs.length < 3) :
    BitWriter.nextLiterals xs = 0 := by
  cases xs with
  | nil => rfl
  | cons x xs =>
    cases xs with
    | nil => rfl
    | cons y xs =>
      cases xs with
      | nil => rfl
      | cons z xs =>
        simp only [List.length_cons] at h
        omega

theorem nextLiterals_le_length (xs : List BufferedSym) : BitWriter.nextLiterals xs ≤ xs.length := by
  by_cases h : xs.length < 3
  · rw [nextLiterals_of_short h]
    exact Nat.zero_le _
  · have := (nextLiterals_spec xs).1
    omega

section Loads
variable {symBuf : Nat → UInt8} {syms : List BufferedSym} {i : Nat} {x : BufferedSym}

theorem drop_of_getElem? (hx : syms[i]? = some x) : syms.drop i = x :: syms.drop (i + 1) := by
  obtain ⟨hi, rfl⟩ := List.getElem?_eq_some_iff.mp hx
  exact List.drop_eq_getElem_cons hi

/-- The look-ahead takes the literals that the symbols behind say, three bytes for each. -/
theorem litRun_spec (ltree : CodeTree) (h : Stores symBuf syms) (x : BufferedSym) (i : Nat) :
    let more := BitWriter.nextLiterals (syms.drop (i + 1))
    litRun ltree symBuf (3 * syms.length) (3 * i) x.lc =
      { bits := (x :: (syms.drop (i + 1)).take more).foldl (BitWriter.assembleLit ltree) (0, 0)
        sx := 3 * (i + (1 + more))
        taken := (List.range' i (1 + more)).map (3 * ·) } := by
  intro more
  have hadd : LitRun.add ltree x.lc { bits := (0, 0), sx := 3 * i, taken := [] } =
      { bits := BitWriter.assembleLit ltree (0, 0) x, sx := 3 * (i + 1), taken := [3 * i] } := rfl
  unfold litRun
  simp only [hadd]
  by_cases hlook : 3 * (i + 1) + 8 ≤ 3 * syms.length
  · -- the eight bytes are those of two symbols and two of a third
    have hy := List.getElem?_eq_getElem (show i + 1 < syms.length by omega)
    have hz := List.getElem?_eq_getElem (show i + 1 + 1 < syms.length by omega)
    have ht := List.getElem?_eq_getElem (show i + 1 + 1 + 1 < syms.length by omega)
    generalize syms[i + 1] = y at hy
    generalize syms[i + 1 + 1] = z at hz
    generalize syms[i + 1 + 1 + 1] = t at ht
    have hrest : syms.drop (i + 1) = y :: z :: t :: syms.drop (i + 1 + 1 + 1 + 1) := by
      rw [drop_of_getElem? hy, drop_of_getElem? hz, drop_of_getElem? ht]
    have hmore : more = if y.dist = 0 then if z.dist = 0 then 2 else 1 else 0 := by
      change BitWriter.nextLiterals (syms.drop (i + 1)) = _
      rw [hrest]
      rfl
    obtain ⟨hdist, hlc, hmask, hlc'⟩ := h.load_eight hy hz
    rw [if_pos hlook, hdist]
    by_cases hy0 : y.dist = 0
    · rw [if_pos hy0]
      by_cases hz0 : z.dist = 0
      · rw [if_pos (hmask.mpr hz0), hmore, if_pos hy0, if_pos hz0, hrest, hlc, hlc']
        rfl
      · rw [if_neg (fun hm => hz0 (hmask.mp hm)), hmore, if_pos hy0, if_neg hz0, hrest, hlc]
        rfl
    · rw [if_neg hy0, hmore, if_neg hy0]
      rfl
  · have hmore : more = 0 := nextLiterals_of_short (by
      rw [List.length_drop]
      omega)
    rw [if_neg hlook, hmore]
    rfl

end Loads

section Codes
variable {ltree dtree : CodeTree} (hl : ltree.Proper 286) (hd : dtree.Proper 30)
include hl

/-- The codes of literals, assembled one above the other. -/
theorem foldl_assembleLit_spec {xs : List BufferedSym} (hxs : ∀ x ∈ xs, x.dist = 0)
    {s : Nat × Nat} (hs : s.1 < 2 ^ s.2) (hroom : s.2 + 15 * xs.length ≤ 64) (t : BitStream) :
    let r := xs.foldl (BitWriter.assembleLit ltree) s
    r.1 < 2 ^ r.2 ∧ r.2 ≤ s.2 + 15 * xs.length ∧
      t.append (BitStream.ofNat r.1 r.2) =
        sentSyms ltree dtree (t.append (BitStream.ofNat s.1 s.2)) xs := by
  induction xs generalizing s with
  | nil => exact ⟨hs, Nat.le_refl _, rfl⟩
  | cons x xs ih =>
    rw [List.length_cons] at hroom
    have hlc : x.lc < 286 := x.lc_lt.trans (by decide)
    have hlen := hl.le _ hlc
    obtain ⟨hlt, hstream⟩ := assemble_spec hs (hl.lt _ hlc) (by omega)
    have hsnd : (BitWriter.assembleLit ltree s x).2 = s.2 + ltree.len x.lc := rfl
    have hcode : x.code ltree dtree = (ltree.code x.lc, ltree.len x.lc) :=
      if_pos (hxs x List.mem_cons_self)
    obtain ⟨hlt', hle', hstream'⟩ := ih (fun y hy => hxs y (List.mem_cons_of_mem _ hy)) hlt (by
      change (BitWriter.assembleLit ltree s x).2 + 15 * xs.length ≤ 64
      omega)
    refine ⟨hlt', ?_, ?_⟩
    · rw [List.length_cons]
      change _ ≤ (BitWriter.assembleLit ltree s x).2 + _ at hle'
      exact hle'.trans (by omega)
    · rw [List.foldl_cons]
      refine hstream'.trans ?_
      rw [sentSyms, sentSyms, List.foldl_cons, hcode, hstream, BitStream.append_assoc]

include hd

/-- The code of a symbol has its length, and there is room for it behind the bits that a flush
leaves. -/
theorem BufferedSym.code_spec (x : BufferedSym) :
    (x.code ltree dtree).1 < 2 ^ (x.code ltree dtree).2 ∧ (x.code ltree dtree).2 ≤ 48 := by
  have hlc := x.lc_lt
  unfold BufferedSym.code
  by_cases hx : x.dist = 0
  · rw [if_pos hx]
    have hlen := hl.le x.lc (by omega)
    exact ⟨hl.lt x.lc (by omega), by dsimp only; omega⟩
  · obtain ⟨d, hdist⟩ := Nat.exists_eq_add_of_le' (Nat.pos_of_ne_zero hx)
    have hd' : d < 32768 := by
      have := x.dist_le
      omega
    have hcode := (length_tables hlc).1
    have hdcode := (distance_tables hd').1
    rw [if_neg hx, hdist]
    obtain ⟨hlt, -, hle, -⟩ := assembleDist_pieces hlc hd' (hl.le _ (by omega)) (hl.lt _ (by omega))
      (hd.le _ hdcode) (hd.lt _ hdcode)
    exact ⟨hlt, hle⟩

/-- A flush, and one symbol. -/
theorem BitWriter.sendSym_spec {w : BitWriter} (hw : w.Held) (x : BufferedSym) :
    ∃ w', sendSym ltree dtree w x = some w' ∧ w'.Held ∧
      w'.stream = sentSyms ltree dtree w.stream [x] := by
  obtain ⟨hlt, hle⟩ := x.code_spec hl hd
  obtain ⟨w₁, h1, hw1, hs1, hn1⟩ := sendBitsFlush_spec hw.lt hw.valid
  obtain ⟨w₂, h2, hw2, hs2, hn2⟩ := sendBitsMerge_spec hw1 hlt (by omega)
  refine ⟨w₂, ?_, ⟨hw2, by omega⟩, by rw [hs2, hs1]; rfl⟩
  unfold sendSym
  rw [h1]
  exact h2

theorem BitWriter.foldlM_sendSym {w : BitWriter} (hw : w.Held) (syms : List BufferedSym) :
    ∃ w', syms.foldlM (sendSym ltree dtree) w = some w' ∧ w'.Held ∧
      w'.stream = sentSyms ltree dtree w.stream syms := by
  induction syms generalizing w with
  | nil => exact ⟨w, rfl, hw, rfl⟩
  | cons x syms ih =>
    obtain ⟨w₁, h1, hw1, hs1⟩ := sendSym_spec hl hd hw x
    obtain ⟨w₂, h2, hw2, hs2⟩ := ih hw1
    refine ⟨w₂, ?_, hw2, by rw [hs2, hs1]; rfl⟩
    rw [List.foldlM_cons, h1]
    exact h2

end Codes

namespace BitWriter

theorem compressLoop_lit {ltree : CodeTree} (dtree : CodeTree) {x : BufferedSym} (hx : x.dist = 0)
    (rest : List BufferedSym) {w w₁ w₂ : BitWriter} (h1 : w.sendBitsFlush = some w₁)
    (h2 : w₁.sendBitsMerge
      ((x :: rest.take (nextLiterals rest)).foldl (assembleLit ltree) (0, 0)).1
      ((x :: rest.take (nextLiterals rest)).foldl (assembleLit ltree) (0, 0)).2 = some w₂) :
    w.compressLoop ltree dtree (x :: rest) =
      w₂.compressLoop ltree dtree (rest.drop (nextLiterals rest)) := by
  rw [compressLoop, h1, Option.bind_eq_bind, Option.bind_some, if_pos hx]
  dsimp only
  rw [h2, Option.bind_some]

theorem compressLoop_match {ltree dtree : CodeTree} {x : BufferedSym} (hx : x.dist ≠ 0)
    (rest : List BufferedSym) {w w₁ w₂ : BitWriter} (h1 : w.sendBitsFlush = some w₁)
    (h2 : w₁.sendBitsMerge (assembleDist ltree dtree x.lc x.dist).1
      (assembleDist ltree dtree x.lc x.dist).2 = some w₂) :
    w.compressLoop ltree dtree (x :: rest) = w₂.compressLoop ltree dtree rest := by
  rw [compressLoop, h1, Option.bind_eq_bind, Option.bind_some, if_neg hx]
  dsimp only
  rw [h2, Option.bind_some]

end BitWriter

section Run
variable {ltree dtree : CodeTree} {symBuf : Nat → UInt8} {syms : List BufferedSym} {w : BitWriter}

/-- The loop at a symbol: those before it have been sent, each once and in order, and the loop
over the list of the symbols is at the same place. -/
structure BlockLoop.At (ltree dtree : CodeTree) (syms : List BufferedSym) (w : BitWriter) (i : Nat)
    (s : BlockLoop) : Prop where
  sx : s.sx = 3 * i
  le : i ≤ syms.length
  held : s.w.Held
  stream : s.w.stream = sentSyms ltree dtree w.stream (syms.take i)
  loop : s.w.compressLoop ltree dtree (syms.drop i) = w.compressLoop ltree dtree syms
  taken : s.taken = (List.range i).map (3 * ·)
  room : ∀ n ∈ s.held, n ≤ 64

theorem BlockLoop.At.start (hw : w.Held) :
    BlockLoop.At ltree dtree syms w 0 { sx := 0, w := w, taken := [], held := [w.biValid] } :=
  ⟨rfl, Nat.zero_le _, hw, rfl, rfl, rfl, fun n hn => by
    rw [List.mem_singleton.mp hn]
    exact hw.valid.le⟩

/-- The next symbols are sent. -/
theorem BlockLoop.At.next {i k : Nat} {s : BlockLoop} (h : s.At ltree dtree syms w i)
    (hk : i + k ≤ syms.length) {w' : BitWriter} (hw : w'.Held)
    (hs : w'.stream = sentSyms ltree dtree s.w.stream ((syms.drop i).take k))
    (hloop : s.w.compressLoop ltree dtree (syms.drop i) =
      w'.compressLoop ltree dtree (syms.drop (i + k))) :
    BlockLoop.At ltree dtree syms w (i + k)
      { sx := 3 * (i + k), w := w', taken := s.taken ++ (List.range' i k).map (3 * ·)
        held := s.held ++ [w'.biValid] } := by
  refine ⟨rfl, hk, hw, ?_, hloop.symm.trans h.loop, ?_, fun n hn => ?_⟩
  · rw [hs, h.stream, List.take_add, sentSyms, sentSyms, sentSyms, List.foldl_append]
  · dsimp only
    have hrange := @List.range'_append_1 0 i k
    rw [Nat.zero_add] at hrange
    rw [h.taken, ← List.map_append, List.range_eq_range', List.range_eq_range', hrange]
  · rcases List.mem_append.mp hn with hn | hn
    · exact h.room n hn
    · rw [List.mem_singleton.mp hn]
      exact hw.valid.le

variable (hl : ltree.Proper 286) (hd : dtree.Proper 30) (hbuf : Stores symBuf syms)
include hl hd hbuf

omit hl hd in
theorem BlockLoop.turn_lit {i : Nat} {x : BufferedSym} (hx : syms[i]? = some x) (hx0 : x.dist = 0)
    {s : BlockLoop} (hsx : s.sx = 3 * i) {w₁ w₂ : BitWriter} (h1 : s.w.sendBitsFlush = some w₁) :
    let more := BitWriter.nextLiterals (syms.drop (i + 1))
    let bits := (x :: (syms.drop (i + 1)).take more).foldl (BitWriter.assembleLit ltree) (0, 0)
    w₁.sendBitsMerge bits.1 bits.2 = some w₂ →
    s.turn ltree dtree symBuf (3 * syms.length) =
      some { sx := 3 * (i + (1 + more)), w := w₂
             taken := s.taken ++ (List.range' i (1 + more)).map (3 * ·)
             held := s.held ++ [w₂.biValid] } := by
  intro more bits h2
  obtain ⟨hdist, hlc⟩ := hbuf.load_four hx
  unfold BlockLoop.turn
  rw [h1, Option.bind_eq_bind, Option.bind_some, hsx]
  dsimp only
  rw [hdist, if_pos hx0, hlc, litRun_spec ltree hbuf x i]
  dsimp only
  rw [h2, Option.bind_some]

omit hl hd in
theorem BlockLoop.turn_match {i : Nat} {x : BufferedSym} (hx : syms[i]? = some x) (hx0 : x.dist ≠ 0)
    {s : BlockLoop} (hsx : s.sx = 3 * i) {w₁ w₂ : BitWriter} (h1 : s.w.sendBitsFlush = some w₁)
    (h2 : w₁.sendBitsMerge (assembleDist ltree dtree x.lc x.dist).1
      (assembleDist ltree dtree x.lc x.dist).2 = some w₂) :
    s.turn ltree dtree symBuf (3 * syms.length) =
      some { sx := 3 * (i + 1), w := w₂, taken := s.taken ++ (List.range' i 1).map (3 * ·)
             held := s.held ++ [w₂.biValid] } := by
  obtain ⟨hdist, hlc⟩ := hbuf.load_four hx
  unfold BlockLoop.turn
  rw [h1, Option.bind_eq_bind, Option.bind_some, hsx]
  dsimp only
  rw [hdist, if_neg hx0, hlc, h2, Option.bind_some]
  rfl

/-- One turn: the symbol, and the literals taken with it. -/
theorem BlockLoop.At.turn {i : Nat} {s : BlockLoop} (h : s.At ltree dtree syms w i)
    (hi : i < syms.length) :
    ∃ j s', s.turn ltree dtree symBuf (3 * syms.length) = some s' ∧ i < j ∧
      s'.At ltree dtree syms w j := by
  have hx := List.getElem?_eq_getElem hi
  generalize syms[i] = x at hx
  have hdrop := drop_of_getElem? hx
  obtain ⟨w₁, h1, hw1, hs1, hn1⟩ := BitWriter.sendBitsFlush_spec h.held.lt h.held.valid
  by_cases hx0 : x.dist = 0
  · obtain ⟨hmore, hlits⟩ := nextLiterals_spec (syms.drop (i + 1))
    have hlen := nextLiterals_le_length (syms.drop (i + 1))
    rw [List.length_drop] at hlen
    have hthree : (x :: (syms.drop (i + 1)).take
        (BitWriter.nextLiterals (syms.drop (i + 1)))).length ≤ 3 := by
      rw [List.length_cons, List.length_take]
      omega
    obtain ⟨hlt, hle, hstream⟩ := @foldl_assembleLit_spec ltree dtree hl
      (x :: (syms.drop (i + 1)).take (BitWriter.nextLiterals (syms.drop (i + 1))))
      (fun y hy => by
        rcases List.mem_cons.mp hy with rfl | hy
        · exact hx0
        · exact hlits y hy)
      (0, 0) (by decide) (by dsimp only; omega) w₁.stream
    obtain ⟨w₂, h2, hw2, hs2, hn2⟩ := BitWriter.sendBitsMerge_spec hw1 hlt (by omega)
    have hloop := BitWriter.compressLoop_lit dtree hx0 (syms.drop (i + 1)) h1 h2
    have hturn : s.turn ltree dtree symBuf (3 * syms.length) = _ :=
      BlockLoop.turn_lit hbuf hx hx0 h.sx h1 h2
    generalize BitWriter.nextLiterals (syms.drop (i + 1)) = more at *
    have htake : (syms.drop i).take (1 + more) = x :: (syms.drop (i + 1)).take more := by
      rw [hdrop, Nat.add_comm, List.take_succ_cons]
    refine ⟨i + (1 + more), _, hturn, by omega, h.next (by omega) ⟨hw2, by omega⟩ ?_ ?_⟩
    · rw [hs2, hstream, hs1, htake, BitStream.append_ofNat_zero]
    · rw [hdrop, hloop, List.drop_drop, Nat.add_assoc]
  · obtain ⟨hlt, hle⟩ := x.code_spec hl hd
    have hcode : x.code ltree dtree = assembleDist ltree dtree x.lc x.dist := if_neg hx0
    obtain ⟨w₂, h2, hw2, hs2, hn2⟩ := BitWriter.sendBitsMerge_spec hw1 hlt (by omega)
    rw [hcode] at h2
    refine ⟨i + 1, _, BlockLoop.turn_match hbuf hx hx0 h.sx h1 h2, Nat.lt_succ_self i,
      h.next hi ⟨hw2, by omega⟩ ?_ ?_⟩
    · rw [hs2, hs1, hdrop]
      rfl
    · rw [hdrop, BitWriter.compressLoop_match hx0 _ h1 h2]

/-- The loop from a symbol that there is on: the turns that are left take all of them. -/
theorem BlockLoop.At.run {i : Nat} {s : BlockLoop} (h : s.At ltree dtree syms w i)
    (hi : i < syms.length) {fuel : Nat} (hfuel : syms.length - i ≤ fuel) :
    ∃ s', s.run ltree dtree symBuf (3 * syms.length) fuel = some s' ∧
      s'.At ltree dtree syms w syms.length := by
  induction fuel generalizing i s with
  | zero => omega
  | succ fuel ih =>
    obtain ⟨j, s₁, hturn, hij, h1⟩ := h.turn hl hd hbuf hi
    have hle := h1.le
    have hsx := h1.sx
    unfold BlockLoop.run
    rw [hturn, Option.bind_eq_bind, Option.bind_some]
    by_cases hj : j < syms.length
    · rw [if_pos (by omega)]
      exact ih h1 hj (by omega)
    · rw [if_neg (by omega)]
      obtain rfl : j = syms.length := by omega
      exact ⟨s₁, rfl, h1⟩

end Run

/-- A turn for a symbol with a length stores a code of that length; the others keep what they had. -/
theorem genCode_foldl_lt {lens : List Nat} (hl : ∀ len ∈ lens, len ≤ maxBits)
    (s : (Nat → Nat) × (Nat → Nat)) (n k : Nat) :
    (lens.getD n 0 = 0 → ((List.range k).foldl (genCode lens) s).2 n = s.2 n) ∧
      (lens.getD n 0 ≠ 0 → n < k →
        ((List.range k).foldl (genCode lens) s).2 n < 2 ^ lens.getD n 0) := by
  induction k with
  | zero => exact ⟨fun _ => rfl, fun _ h => absurd h (Nat.not_lt_zero n)⟩
  | succ k ih =>
    rw [List.range_succ, List.foldl_append, List.foldl_cons, List.foldl_nil]
    generalize (List.range k).foldl (genCode lens) s = s' at *
    unfold genCode
    dsimp only
    by_cases hk : lens.getD k 0 = 0
    · rw [if_pos hk]
      refine ⟨ih.1, fun hn hlt => ih.2 hn ?_⟩
      have : n ≠ k := fun h => hn (h ▸ hk)
      omega
    · rw [if_neg hk]
      dsimp only
      by_cases hnk : n = k
      · subst hnk
        rw [Function.update_self]
        have hmax : maxBits = 15 := rfl
        have hle := getD_le hl n
        exact ⟨fun h => absurd h hk, fun _ _ => biReverse_lt (by omega) _⟩
      · rw [Function.update_of_ne hnk]
        exact ⟨ih.1, fun hn hlt => ih.2 hn (by omega)⟩

theorem genCodes_lt {lens : List Nat} (hl : ∀ len ∈ lens, len ≤ maxBits) (blCount code : Nat → Nat)
    (n : Nat) : (lens.getD n 0 = 0 → genCodes lens blCount code n = code n) ∧
      (lens.getD n 0 ≠ 0 → genCodes lens blCount code n < 2 ^ lens.getD n 0) := by
  obtain ⟨hkeep, hlt⟩ := genCode_foldl_lt hl (firstCode blCount, code) n lens.length
  refine ⟨hkeep, fun hn => hlt hn ?_⟩
  by_contra hge
  exact hn (List.getD_eq_default _ _ (by omega))

/-- The codes that `gen_codes` gives have their lengths. -/
theorem CodeTree.proper_of_genCodes {tree : CodeTree} {elems : Nat} {lens : List Nat}
    {blCount code : Nat → Nat} (hcode : tree.code = genCodes lens blCount code)
    (hl : ∀ len ∈ lens, len ≤ maxBits) (hlen : ∀ n < elems, tree.len n = lens.getD n 0)
    (hunused : ∀ n < elems, tree.len n = 0 → code n = 0) : tree.Proper elems := by
  refine ⟨⟨fun n hn => ?_⟩, fun n hn => ?_⟩
  · rw [hlen n hn]
    exact getD_le hl n
  · obtain ⟨hkeep, hlt⟩ := genCodes_lt hl blCount code n
    rw [hcode]
    by_cases h0 : tree.len n = 0
    · rw [h0, hkeep ((hlen n hn).symm.trans h0), hunused n hn h0]
      exact Nat.one_pos
    · rw [hlen n hn] at h0 ⊢
      exact hlt h0

theorem staticLcodes_proper : staticLcodes.Proper 286 := by
  have hcode : staticLcodes.code =
      genCodes staticLtree (fun len => staticLtree.count len) fun _ => 0 := by rw [staticLcodes]
  have hle : ∀ len ∈ staticLtree, len ≤ maxBits := by decide +kernel
  exact CodeTree.proper_of_genCodes hcode hle (fun _ _ => rfl) fun _ _ _ => rfl

theorem staticDcodes_proper : staticDcodes.Proper 30 :=
  CodeTree.proper_of_genCodes rfl (by decide) (fun _ _ => rfl) fun _ _ _ => rfl

theorem BuiltTree.codeTree_proper {kind : TreeKind} {freq : Nat → Nat} {t : BuiltTree}
    (h : t.Huffman kind.desc freq) (hu : t.Counted kind.desc) (hmax : t.maxCode < kind.desc.elems) :
    t.codeTree.Proper kind.desc.elems := by
  refine CodeTree.proper_of_genCodes rfl (lens_le h hmax).1 (fun n hn => ?_) fun n hn h0 => ?_
  · by_cases hle : (n : Int) ≤ t.maxCode
    · exact (getD_map_range (show n < (t.maxCode + 1).toNat by omega)).symm
    · rw [List.getD_eq_default _ _ (by
        rw [BuiltTree.lens, List.length_map, List.length_range]
        omega)]
      exact t.len_above h hu hn (by omega)
  · by_contra hne
    exact (h.len_ne_zero n hn).mpr hne h0

/-- A tree of a block, with what `build_tree` makes of its frequencies. -/
structure BuiltTree.Sent (kind : TreeKind) (freq : Nat → Nat) (t : BuiltTree) : Prop where
  huffman : t.Huffman kind.desc freq
  counted : t.Counted kind.desc
  maxCode : t.maxCode < kind.desc.elems

section Sent
variable {dl : TreeKind → Nat → Nat} {freqs : (Nat → Nat) × (Nat → Nat)} {t : BlockTrees}
  (hl : ((List.range TreeKind.literal.desc.elems).map freqs.1).sum ≤ 65535)
  (hd : ((List.range TreeKind.distance.desc.elems).map freqs.2).sum ≤ 65535)
  (ht : buildTrees dl freqs = some t)
include hl hd ht

theorem buildTrees_sent : t.l.Sent .literal freqs.1 ∧ t.d.Sent .distance freqs.2 := by
  obtain ⟨l, hlt, hlh⟩ := buildTree_huffman .literal freqs.1 (dl .literal) 0 0 hl
  obtain ⟨d, hdt, hdh⟩ := buildTree_huffman .distance freqs.2 (dl .distance) l.optLen l.staticLen hd
  unfold buildTrees buildBlTree at ht
  rw [hlt, Option.bind_eq_bind, Option.bind_some, hdt, Option.bind_some] at ht
  dsimp only at ht
  obtain ⟨bl, -, hbl⟩ := Option.bind_eq_some_iff.mp ht
  obtain rfl := Option.some.inj hbl
  exact ⟨⟨hlh, buildTree_counted .literal hl hlt,
      buildTree_maxCode .literal (freq_lt_of_sum hl) hlt⟩,
    ⟨hdh, buildTree_counted .distance hd hdt,
      buildTree_maxCode .distance (freq_lt_of_sum hd) hdt⟩⟩

/-- The trees that a block is sent with, whatever its symbols. -/
theorem buildTrees_proper : t.l.codeTree.Proper 286 ∧ t.d.codeTree.Proper 30 := by
  obtain ⟨hls, hds⟩ := buildTrees_sent hl hd ht
  exact ⟨t.l.codeTree_proper hls.huffman hls.counted hls.maxCode,
    t.d.codeTree_proper hds.huffman hds.counted hds.maxCode⟩

end Sent

/-- The loop over the whole buffer, and the end of the block. -/
theorem compressBytes_spec {ltree dtree : CodeTree} (hl : ltree.Proper 286) (hd : dtree.Proper 30)
    {symBuf : Nat → UInt8} {syms : List BufferedSym} (hbuf : Stores symBuf syms) {w : BitWriter}
    (hw : w.Held) :
    ∃ s, compressBytes ltree dtree symBuf (3 * syms.length) w = some s ∧
      w.compressBlock ltree dtree syms = some s.w ∧ s.w.Held ∧
      s.w.stream = (sentSyms ltree dtree w.stream syms).append
        (BitStream.ofNat (ltree.code 256) (ltree.len 256)) ∧
      s.taken = (List.range syms.length).map (3 * ·) ∧ ∀ n ∈ s.held, n ≤ 64 := by
  have hstart : BlockLoop.At ltree dtree syms w 0
      { sx := 0, w := w, taken := [], held := [w.biValid] } := BlockLoop.At.start hw
  obtain ⟨s, hrun, hs⟩ : ∃ s, (if 3 * syms.length ≠ 0 then
      BlockLoop.run ltree dtree symBuf (3 * syms.length) (3 * syms.length)
        { sx := 0, w := w, taken := [], held := [w.biValid] }
      else some { sx := 0, w := w, taken := [], held := [w.biValid] }) = some s ∧
      s.At ltree dtree syms w syms.length := by
    by_cases h0 : syms.length = 0
    · rw [if_neg (by omega)]
      refine ⟨_, rfl, ?_⟩
      rw [h0]
      exact hstart
    · rw [if_pos (by omega)]
      exact hstart.run hl hd hbuf (by omega) (by omega)
  have hloop := hs.loop
  have hlen := hl.le 256 (by decide)
  rw [List.drop_length, BitWriter.compressLoop] at hloop
  obtain ⟨w', hend, hw', hstream, -⟩ :=
    BitWriter.sendBits_spec hs.held (hlen.trans (by decide)) (hl.lt 256 (by decide))
  refine ⟨{ s with w := w', held := s.held ++ [w'.biValid] }, ?_, ?_, hw', ?_, hs.taken,
    fun n hn => ?_⟩
  · unfold compressBytes
    dsimp only
    rw [hrun, Option.bind_eq_bind, Option.bind_some]
    unfold BitWriter.sendCode
    rw [hend]
    rfl
  · unfold BitWriter.compressBlock
    rw [← hloop]
    exact hend
  · rw [hs.stream, List.take_length] at hstream
    exact hstream
  · rcases List.mem_append.mp hn with hn | hn
    · exact hs.room n hn
    · rw [List.mem_singleton.mp hn]
      exact hw'.valid.le

/-- The symbols one at a time. -/
theorem BitWriter.sendSyms_spec {ltree dtree : CodeTree} (hl : ltree.Proper 286)
    (hd : dtree.Proper 30) (syms : List BufferedSym) {w : BitWriter} (hw : w.Held) :
    ∃ w', w.sendSyms ltree dtree syms = some w' ∧
      w'.stream = (sentSyms ltree dtree w.stream syms).append
        (BitStream.ofNat (ltree.code 256) (ltree.len 256)) := by
  have hlen := hl.le 256 (by decide)
  obtain ⟨w₁, h1, hw1, hs1⟩ := foldlM_sendSym hl hd hw syms
  obtain ⟨w₂, h2, -, hs2, -⟩ := sendBits_spec hw1 (hlen.trans (by decide)) (hl.lt 256 (by decide))
  refine ⟨w₂, ?_, by rw [hs2, hs1]⟩
  unfold sendSyms
  rw [h1]
  exact h2

/-- A block sent with the look-ahead has the bits of its symbols sent one at a time. Every symbol of
the buffer is taken once, in order; those taken are before `sym_next`, and their bytes are. The
bits held are never more than a word. -/
theorem literal_run (ltree dtree : CodeTree) (hl : ltree.Proper 286) (hd : dtree.Proper 30)
    (syms : List BufferedSym) (symBuf : Nat → UInt8) (hbuf : Stores symBuf syms) (w : BitWriter)
    (hw : w.Held) :
    ∃ s w', compressBytes ltree dtree symBuf (3 * syms.length) w = some s ∧
      w.sendSyms ltree dtree syms = some w' ∧ s.w.stream = w'.stream ∧
      w.compressBlock ltree dtree syms = some s.w ∧
      s.taken = (List.range syms.length).map (3 * ·) ∧
      (∀ sx ∈ s.taken, sx + 3 ≤ 3 * syms.length) ∧ ∀ n ∈ s.held, n ≤ 64 := by
  obtain ⟨s, hs, hblock, -, hstream, htaken, hheld⟩ := compressBytes_spec hl hd hbuf hw
  obtain ⟨w', hw', hstream'⟩ := BitWriter.sendSyms_spec hl hd syms hw
  refine ⟨s, w', hs, hw', hstream.trans hstream'.symm, hblock, htaken, fun sx hsx => ?_, hheld⟩
  rw [htaken] at hsx
  obtain ⟨i, hi, rfl⟩ := List.mem_map.mp hsx
  have := List.mem_range.mp hi
  omega

/-- Four literals and a match between them, over bytes that are all ones. -/
def litsAndMatch : List BufferedSym :=
  [⟨0, 97, by decide, by decide⟩, ⟨0, 98, by decide, by decide⟩, ⟨2, 1, by decide, by decide⟩,
    ⟨0, 99, by decide, by decide⟩, ⟨0, 100, by decide, by decide⟩]

theorem literal_run_five :
    ∃ s w', compressBytes staticLcodes staticDcodes (storeSyms (fun _ => 255) litsAndMatch).1 15
        ⟨[], 3, 3, 0⟩ = some s ∧
      BitWriter.sendSyms staticLcodes staticDcodes litsAndMatch ⟨[], 3, 3, 0⟩ = some w' ∧
      s.w.stream = w'.stream ∧ s.taken = [0, 3, 6, 9, 12] ∧ ∀ n ∈ s.held, n ≤ 64 := by
  obtain ⟨s, w', hs, hw', hstream, -, htaken, -, hheld⟩ :=
    literal_run staticLcodes staticDcodes staticLcodes_proper staticDcodes_proper litsAndMatch _
      (storeSyms_spec (fun _ => 255) litsAndMatch).1 ⟨[], 3, 3, 0⟩ ⟨by decide, by decide⟩
  exact ⟨s, w', hs, hw', hstream, htaken, hheld⟩

end ZlibNg
