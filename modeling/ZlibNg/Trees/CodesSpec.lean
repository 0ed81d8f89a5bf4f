import ZlibNg.Bits.Pieces
import ZlibNg.Inflate.Init
import ZlibNg.Inflate.SymbolRun
import ZlibNg.Inflate.Canonical
import ZlibNg.Trees.Codes
import ZlibNg.Trees.EmitSpec

/-! The encoder's code words are the ones that the decoder's tables are built from: each symbol,
and each match with its extra bits, is read back. -/
namespace ZlibNg

/-- The number of codes of each length, as `gen_codes` is given it. -/
structure BlCount (lens : List Nat) (blCount : Nat → Nat) : Prop where
  zero : blCount 0 = 0
  count : ∀ l, 1 ≤ l → l ≤ maxBits → blCount l = countLengths lens l

section Codes
variable {lens : List Nat} {blCount : Nat → Nat}

/-- The codes of a length fit in it. -/
theorem nextCode_count_le (hl : ∀ len ∈ lens, len ≤ maxBits) (hc : Complete lens) {l : Nat}
    (h1 : 1 ≤ l) (h15 : l ≤ maxBits) : nextCode lens l + countLengths lens l ≤ 2 ^ l := by
  have hmax : maxBits = 15 := rfl
  have hend : codeBase (countLengths lens) (maxBits + 1) = 2 ^ 16 := by
    rw [codeBase_kraft hl, hc]
    rfl
  have hmono := codeBase_mono (c := countLengths lens) (show l + 1 ≤ maxBits + 1 by omega)
  rw [hend, codeBase_succ h1, codeBase_nextCode l (by omega), ← Nat.add_mul] at hmono
  have hpow : 2 ^ 16 = 2 ^ l * 2 ^ (16 - l) := by
    rw [← Nat.pow_add]
    congr 1
    omega
  rw [hpow] at hmono
  exact Nat.le_of_mul_le_mul_right hmono (Nat.two_pow_pos _)

/-- `next_code` never wraps. -/
theorem firstCode_eq (hb : BlCount lens blCount) (hl : ∀ len ∈ lens, len ≤ maxBits)
    (hc : Complete lens) {l : Nat} (h15 : l ≤ maxBits) : firstCode blCount l = nextCode lens l := by
  have hmax : maxBits = 15 := rfl
  induction l with
  | zero => rfl
  | succ l ih =>
    have hcount : blCount l = if l = 0 then 0 else countLengths lens l := by
      split
      · next h0 => rw [h0, hb.zero]
      · exact hb.count l (by omega) (by omega)
    have hnext : (nextCode lens l + blCount l) * 2 = nextCode lens (l + 1) := by
      rw [nextCode, hcount]
    have hle := nextCode_count_le hl hc (show 1 ≤ l + 1 by omega) h15
    have hpow : 2 ^ (l + 1) ≤ 2 ^ 15 := Nat.pow_le_pow_right (by omega) (by omega)
    rw [firstCode, ih (by omega), hnext, Nat.mod_eq_of_lt (by omega)]

/-- The loop over the symbols: the codes of each length are handed out in order. -/
theorem genCode_foldl (hb : BlCount lens blCount) (hl : ∀ len ∈ lens, len ≤ maxBits)
    (hc : Complete lens) (code : Nat → Nat) (n : Nat) (hn : n ≤ lens.length) :
    let s := (List.range n).foldl (genCode lens) (firstCode blCount, code)
    (∀ l, 1 ≤ l → l ≤ maxBits → s.1 l = nextCode lens l + (lens.take n).count l) ∧
      ∀ t < n, lens.getD t 0 ≠ 0 → s.2 t = biReverse (canonicalCode lens t) (lens.getD t 0) := by
  induction n with
  | zero =>
    refine ⟨fun l _ h15 => ?_, fun t ht => absurd ht (Nat.not_lt_zero t)⟩
    simp [firstCode_eq hb hl hc h15]
  | succ n ih =>
    obtain ⟨hnext, hcode⟩ := ih (by omega)
    have hcount := take_succ_count lens (show n < lens.length by omega)
    simp only [List.range_succ, List.foldl_append, List.foldl_cons, List.foldl_nil]
    generalize (List.range n).foldl (genCode lens) (firstCode blCount, code) = s at hnext hcode ⊢
    unfold genCode
    dsimp only
    split
    · next h0 =>
      refine ⟨fun l h1 h15 => ?_, fun t ht hne => ?_⟩
      · rw [hnext l h1 h15, hcount, if_neg (by omega), Nat.add_zero]
      · have hlt : t ≠ n := fun heq => hne (heq ▸ h0)
        exact hcode t (by omega) hne
    · next h0 =>
      have hlen : lens.getD n 0 ≤ maxBits := by
        rw [List.getD_eq_getElem _ _ (by omega)]
        exact hl _ (List.getElem_mem _)
      have hcur := hnext _ (Nat.one_le_iff_ne_zero.mpr h0) hlen
      dsimp only
      refine ⟨fun l h1 h15 => ?_, fun t ht hne => ?_⟩
      · by_cases heq : l = lens.getD n 0
        · subst heq
          have hfit := nextCode_count_le hl hc h1 h15
          have hrank := @rankOf_lt_count lens n (by omega)
          have hpow : 2 ^ lens.getD n 0 ≤ 2 ^ 15 := Nat.pow_le_pow_right (by omega) hlen
          unfold rankOf at hrank
          rw [Function.update_self, hcur, hcount, if_pos rfl, Nat.mod_eq_of_lt (by omega)]
          omega
        · rw [Function.update_of_ne heq, hnext l h1 h15, hcount,
            if_neg (fun h => heq h.symm), Nat.add_zero]
      · by_cases heq : t = n
        · subst heq
          rw [Function.update_self, hcur]
          rfl
        · rw [Function.update_of_ne heq]
          exact hcode t (by omega) hne

theorem genCodes_eq (hb : BlCount lens blCount) (hl : ∀ len ∈ lens, len ≤ maxBits)
    (hc : Complete lens) (code : Nat → Nat) {symbol : Nat} (hs : symbol < lens.length)
    (h0 : lens.getD symbol 0 ≠ 0) :
    genCodes lens blCount code symbol =
      biReverse (canonicalCode lens symbol) (lens.getD symbol 0) :=
  (genCode_foldl hb hl hc code lens.length le_rfl).2 symbol hs h0

theorem biReverse_testBit {code len : Nat} (hlen : len ≤ 16) (i : Nat) :
    (biReverse code len).testBit i = (decide (i < len) && code.testBit (len - 1 - i)) := by
  rw [biReverse, Nat.testBit_shiftRight, zngBitreverse16_testBit]
  by_cases hi : i < len
  · rw [decide_eq_true hi, decide_eq_true (by omega), show 15 - (16 - len + i) = len - 1 - i by omega]
  · rw [decide_eq_false hi, decide_eq_false (by omega), Bool.false_and, Bool.false_and]

theorem biReverse_lt {len : Nat} (hlen : len ≤ 16) (code : Nat) : biReverse code len < 2 ^ len := by
  apply Nat.lt_pow_two_of_testBit
  intro i hi
  rw [biReverse_testBit hlen, decide_eq_false (by omega), Bool.false_and]

/-- Bits that start with a reversed code, lowest first, start with the code, highest bit first. -/
theorem beginsWith_biReverse {code len v : Nat} (hlen : len ≤ 16)
    (hv : v % 2 ^ len = biReverse code len) : BeginsWith v code len := by
  intro i hi
  have hbit := congrArg (fun w => w.testBit i) hv
  simp only [Nat.testBit_mod_two_pow, biReverse_testBit hlen, hi, decide_true, Bool.true_and] at hbit
  exact hbit

/-- What `gen_codes` assigns to a symbol is a code word of its length, decoded by the table
built from the same lengths, whatever comes after it. -/
theorem genCodes_lookup {type : CodeType} {bits : Nat} (hp : type.Passed lens.length bits)
    (hb : BlCount lens blCount) (hl : ∀ len ∈ lens, len ≤ maxBits) (hc : Complete lens)
    (code : Nat → Nat) :
    ∃ t, zngInflateTable type lens bits = .ok t ∧
      ∀ symbol < lens.length, lens.getD symbol 0 ≠ 0 →
        genCodes lens blCount code symbol < 2 ^ lens.getD symbol 0 ∧
        ∀ v, v % 2 ^ lens.getD symbol 0 = genCodes lens blCount code symbol →
          Yields type symbol (t.lookup v).1 ∧ (t.lookup v).2 = lens.getD symbol 0 := by
  obtain ⟨t, ht, hcanon⟩ := (zngInflateTable_canonical hp hl).1 (.inl hc)
  refine ⟨t, ht, fun symbol hs h0 => ?_⟩
  have hlen : lens.getD symbol 0 ≤ 16 := by
    have hle : lens.getD symbol 0 ≤ maxBits := by
      rw [List.getD_eq_getElem _ _ hs]
      exact hl _ (List.getElem_mem hs)
    exact hle.trans (by decide)
  rw [genCodes_eq hb hl hc code hs h0]
  exact ⟨biReverse_lt hlen _,
    fun v hv => hcanon.word symbol hs h0 v (beginsWith_biReverse hlen hv)⟩

end Codes

/-- An entry that is found is the one selected, with the bits of its code. -/
theorem DecodeTable.Finds.select {type : CodeType} {n bits symbol v l : Nat} {t : DecodeTable}
    (hp : type.Passed n bits) (hs : symbol < n) (hl : l ≤ maxBits) (hbits : t.bits ≤ maxBits)
    (h : t.Finds v l (entryFor type symbol)) :
    selectBits t.entry t.bits v = l ∧
      ∃ k ≤ maxBits, (ZlibNg.select t.entry t.bits v).2 = entryFor type symbol k := by
  have h15 : maxBits = 15 := rfl
  unfold selectBits
  rcases h with ⟨-, he⟩ | ⟨hlt, curr, next, he, h1, h2, h3⟩
  · obtain ⟨hy, hc, hd⟩ := hp.yields hs hl
    have hnot : ¬ (1 ≤ (entryFor type symbol l).op ∧ (entryFor type symbol l).op ≤ 15) :=
      fun hop => hd ⟨by omega, (link_op hop.2).2.2.2.2⟩
    simp only [ZlibNg.select, he, if_neg hnot]
    exact ⟨by omega, l, hl, rfl⟩
  · obtain ⟨hy, hc, -⟩ := hp.yields hs (show l - t.bits ≤ 15 by omega)
    have hlink : 1 ≤ curr ∧ curr ≤ 15 := by omega
    simp only [ZlibNg.select, he, if_pos hlink, h3]
    exact ⟨by omega, l - t.bits, by omega, rfl⟩

/-- A tree as the encoder has it and the table as the decoder has it, from the same lengths. -/
structure SameTree (type : CodeType) (bits : Nat) (lens : List Nat) (blCount : Nat → Nat)
    (tree : CodeTree) (entry : Nat → Code) (root : Nat) : Prop where
  passed : type.Passed lens.length bits
  count : BlCount lens blCount
  le : ∀ len ∈ lens, len ≤ maxBits
  complete : Complete lens
  len : ∀ n < lens.length, tree.len n = lens.getD n 0
  code : ∃ code, ∀ n, tree.code n = genCodes lens blCount code n
  table : ∃ t, zngInflateTable type lens bits = .ok t ∧ entry = t.entry ∧ root = t.bits

namespace SameTree
variable {type : CodeType} {bits : Nat} {lens : List Nat} {blCount : Nat → Nat} {tree : CodeTree}
  {entry : Nat → Code} {root : Nat}

theorem len_le (h : SameTree type bits lens blCount tree entry root) {symbol : Nat}
    (hs : symbol < lens.length) : tree.len symbol ≤ 15 := by
  rw [h.len symbol hs, List.getD_eq_getElem _ _ hs]
  exact h.le _ (List.getElem_mem hs)

theorem code_eq (h : SameTree type bits lens blCount tree entry root) {symbol : Nat}
    (hs : symbol < lens.length) (h0 : tree.len symbol ≠ 0) :
    tree.code symbol = biReverse (canonicalCode lens symbol) (tree.len symbol) := by
  obtain ⟨code, hcode⟩ := h.code
  rw [h.len symbol hs] at h0 ⊢
  rw [hcode, genCodes_eq h.count h.le h.complete code hs h0]

theorem code_lt (h : SameTree type bits lens blCount tree entry root) {symbol : Nat}
    (hs : symbol < lens.length) (h0 : tree.len symbol ≠ 0) :
    tree.code symbol < 2 ^ tree.len symbol := by
  rw [h.code_eq hs h0]
  exact biReverse_lt ((h.len_le hs).trans (by decide)) _

/-- The code of a symbol selects its entry. -/
theorem select (h : SameTree type bits lens blCount tree entry root) {symbol : Nat}
    (hs : symbol < lens.length) (h0 : tree.len symbol ≠ 0) {v : Nat}
    (hv : v % 2 ^ tree.len symbol = tree.code symbol) :
    selectBits entry root v = tree.len symbol ∧
      ∃ k ≤ maxBits, (ZlibNg.select entry root v).2 = entryFor type symbol k := by
  obtain ⟨t, ht, rfl, rfl⟩ := h.table
  have hlen := h.len_le hs
  have hdec := zngInflateTable_decodes h.passed.bits_le.2 h.passed.room ht
  have hbegin : BeginsWith v (canonicalCode lens symbol) (tree.len symbol) :=
    beginsWith_biReverse (by omega) (hv.trans (h.code_eq hs h0))
  have hstart := (startsWith_iff_beginsWith (show tree.len symbol ≤ 16 by omega)).mpr
    (show BeginsWith v (nextCode lens (tree.len symbol) + rankOf lens symbol) (tree.len symbol) by
      rwa [canonicalCode, ← h.len symbol hs] at hbegin)
  have hcount : rankOf lens symbol < countLengths lens (tree.len symbol) := by
    rw [h.len symbol hs]
    exact rankOf_lt_count hs
  have hfind := hdec.finds _ _ v (Nat.one_le_iff_ne_zero.mpr h0) hlen hcount hstart
  have hsym : symbolAt lens (tree.len symbol) (rankOf lens symbol) = symbol := by
    rw [h.len symbol hs] at h0 ⊢
    exact sortSymbols_posOf hs h0
  rw [hsym] at hfind
  exact hfind.select h.passed hs hlen hdec.bits_le

end SameTree

/-- A code word of the encoder's tree is found in the decoder's table, whatever comes after it. -/
structure HasCode (type : CodeType) (tree : CodeTree) (entry : Nat → Code) (root symbol : Nat) :
    Prop where
  len_le : tree.len symbol ≤ 15
  code_lt : tree.code symbol < 2 ^ tree.len symbol
  select : ∀ v, v % 2 ^ tree.len symbol = tree.code symbol →
    selectBits entry root v = tree.len symbol ∧
      ∃ k ≤ maxBits, (ZlibNg.select entry root v).2 = entryFor type symbol k

theorem SameTree.hasCode {type : CodeType} {bits : Nat} {lens : List Nat} {blCount : Nat → Nat}
    {tree : CodeTree} {entry : Nat → Code} {root symbol : Nat}
    (h : SameTree type bits lens blCount tree entry root) (hs : symbol < lens.length)
    (h0 : tree.len symbol ≠ 0) : HasCode type tree entry root symbol :=
  ⟨h.len_le hs, h.code_lt hs h0, fun _ hv => h.select hs h0 hv⟩

/-- A table is checked entry by entry, with the index of each. -/
theorem getD_of_zipIdx {α : Type} {table : List α} {P : α × Nat → Prop}
    (h : ∀ r ∈ table.zipIdx, P r) (d : α) {i : Nat} (hi : i < table.length) : P (table.getD i d, i) := by
  have hmem : (table[i], i) ∈ table.zipIdx := by
    rw [List.mk_mem_zipIdx_iff_getElem?]
    exact List.getElem?_eq_getElem hi
  rw [List.getD_eq_getElem _ _ hi]
  exact h _ hmem

/-- The tables of the two sides for the lengths: code, mask, extra bits and base value. -/
theorem length_tables {lc : Nat} (h : lc < 256) : zngLengthCode.getD lc 0 < 29 ∧
    lc &&& lmaskExtra.getD (zngLengthCode.getD lc 0) 0 =
      lc % 2 ^ (lext.getD (zngLengthCode.getD lc 0) 0 &&& 15) ∧
    lmaskExtra.getD (zngLengthCode.getD lc 0) 0 >>> 8 = lext.getD (zngLengthCode.getD lc 0) 0 &&& 15 ∧
    lbase.getD (zngLengthCode.getD lc 0) 0 +
      lc % 2 ^ (lext.getD (zngLengthCode.getD lc 0) 0 &&& 15) = lc + 3 := by
  have hall : ∀ r ∈ zngLengthCode.zipIdx, r.1 < 29 ∧
      r.2 &&& lmaskExtra.getD r.1 0 = r.2 % 2 ^ (lext.getD r.1 0 &&& 15) ∧
      lmaskExtra.getD r.1 0 >>> 8 = lext.getD r.1 0 &&& 15 ∧
      lbase.getD r.1 0 + r.2 % 2 ^ (lext.getD r.1 0 &&& 15) = r.2 + 3 := by
    decide +kernel
  have hlen : zngLengthCode.length = 256 := by decide +kernel
  exact getD_of_zipIdx hall 0 (hlen ▸ h)

/-- The mask of a distance code leaves its extra bits. -/
theorem dmask_tables {code d : Nat} (hcode : code < 30) (hd : d < 2 ^ 16) :
    d &&& dmaskExtra.getD code 0 = d % 2 ^ (dext.getD code 0 &&& 15) ∧
      dmaskExtra.getD code 0 >>> 16 = dext.getD code 0 &&& 15 := by
  have hall : ∀ code < 30,
      dmaskExtra.getD code 0 = (dext.getD code 0 &&& 15) <<< 16 |||
        (2 ^ (dext.getD code 0 &&& 15) - 1) ∧
      dmaskExtra.getD code 0 >>> 16 = dext.getD code 0 &&& 15 := by decide
  obtain ⟨hmask, hshift⟩ := hall code hcode
  have hhigh : d &&& (dext.getD code 0 &&& 15) <<< 16 = 0 := by
    apply Nat.eq_of_testBit_eq
    intro i
    rw [Nat.testBit_and, Nat.testBit_shiftLeft, Nat.zero_testBit]
    by_cases hi : 16 ≤ i
    · rw [Nat.testBit_lt_two_pow (hd.trans_le (Nat.pow_le_pow_right (by omega) hi)), Bool.false_and]
    · rw [decide_eq_false hi, Bool.false_and, Bool.and_false]
  refine ⟨?_, hshift⟩
  rw [hmask, Nat.and_or_distrib_left, hhigh, Nat.zero_or, Nat.and_two_pow_sub_one_eq_mod]

/-- The tables of the two sides for the distances. -/
theorem distance_tables {d : Nat} (h : d < 32768) : dCode d < 30 ∧
    dbase.getD (dCode d) 0 + d % 2 ^ (dext.getD (dCode d) 0 &&& 15) = d + 1 := by
  have hall : ∀ r ∈ zngDistCode.zipIdx,
      (r.2 < 256 → r.1 < 30 ∧ dbase.getD r.1 0 + r.2 % 2 ^ (dext.getD r.1 0 &&& 15) = r.2 + 1) ∧
      (258 ≤ r.2 → r.1 < 30 ∧ 7 ≤ dext.getD r.1 0 &&& 15 ∧ dbase.getD r.1 0 +
        128 * ((r.2 - 256) % 2 ^ ((dext.getD r.1 0 &&& 15) - 7)) = 128 * (r.2 - 256) + 1) := by
    decide +kernel
  have hlen : zngDistCode.length = 512 := by decide +kernel
  have hentry {i : Nat} (hi : i < 512) := getD_of_zipIdx hall 0 (hlen ▸ hi)
  unfold dCode
  split
  · next hlt => exact (hentry (by omega)).1 hlt
  · next hge =>
    -- distances from 256 on share their low seven bits
    rw [Nat.shiftRight_eq_div_pow]
    obtain ⟨hcode, h7, hbase⟩ := (@hentry (256 + d / 2 ^ 7) (by omega)).2 (by omega)
    dsimp only at hcode h7 hbase
    rw [Nat.add_sub_cancel_left] at hbase
    refine ⟨hcode, ?_⟩
    have hpow : 2 ^ (dext.getD (zngDistCode.getD (256 + d / 2 ^ 7) 0) 0 &&& 15) =
        2 ^ 7 * 2 ^ ((dext.getD (zngDistCode.getD (256 + d / 2 ^ 7) 0) 0 &&& 15) - 7) := by
      rw [← Nat.pow_add]
      congr 1
      omega
    rw [hpow, Nat.mod_mul]
    omega

/-- A piece that fits is appended to the bits assembled. -/
theorem assemble_spec {s : Nat × Nat} (hs : s.1 < 2 ^ s.2) {value length : Nat}
    (hv : value < 2 ^ length) (hroom : s.2 + length ≤ 64) :
    (assemble s value length).1 < 2 ^ (assemble s value length).2 ∧
      BitStream.ofNat (assemble s value length).1 (assemble s value length).2 =
        (BitStream.ofNat s.1 s.2).append (BitStream.ofNat value length) := by
  obtain ⟨hor, hlt⟩ := BitWriter.or_value hs hv
  have hshift : value <<< s.2 < 2 ^ 64 := by
    rw [Nat.shiftLeft_eq]
    calc value * 2 ^ s.2 < 2 ^ length * 2 ^ s.2 :=
          Nat.mul_lt_mul_of_pos_right hv (Nat.two_pow_pos _)
      _ = 2 ^ (s.2 + length) := by rw [← Nat.pow_add, Nat.add_comm]
      _ ≤ 2 ^ 64 := Nat.pow_le_pow_right (by omega) hroom
  unfold assemble
  dsimp only
  rw [Nat.mod_eq_of_lt hshift, hor]
  exact ⟨hlt, by rw [BitStream.ofNat_append value length hs, Nat.mod_eq_of_lt hv]⟩

/-- The low bits of a stream that begins with a piece, and the rest of it. -/
theorem ofNat_append_val {value length : Nat} (hv : value < 2 ^ length) (t : BitStream) :
    ((BitStream.ofNat value length).append t).val % 2 ^ length = value ∧
      ((BitStream.ofNat value length).append t).val / 2 ^ length = t.val := by
  rw [BitStream.append_val, BitStream.ofNat_val, BitStream.ofNat_len, Nat.mod_eq_of_lt hv]
  exact ⟨by rw [Nat.add_mul_mod_self_left, Nat.mod_eq_of_lt hv],
    by rw [Nat.add_mul_div_left _ _ (Nat.two_pow_pos _), Nat.div_eq_of_lt hv, Nat.zero_add]⟩

/-- The entry of a length or distance symbol, with the bits of its code in the table. -/
theorem entryFor_base {type : CodeType} {symbol k : Nat} (hge : type.matchSym ≤ symbol)
    (hop : type.extra.getD (symbol - type.matchSym) 0 &&& 16 ≠ 0) (hk : k ≤ 15) :
    entryFor type symbol k =
      { op := 16 + k, bits := k + (type.extra.getD (symbol - type.matchSym) 0 &&& 15),
        val := type.base.getD (symbol - type.matchSym) 0 } := by
  have hand : type.extra.getD (symbol - type.matchSym) 0 &&& 15 ≤ 15 := Nat.and_le_right
  rw [entryFor, if_pos hge]
  simp only [combineOp_base hop hk, combineBits, Code.mk.injEq, and_true]
  exact Nat.mod_eq_of_lt (by omega)

section Match
variable {s : InflateState} {ltree dtree : CodeTree} {llens dlens : List Nat}
  {lcount dcount : Nat → Nat}

theorem SameTree.tablesOk (hl : SameTree .lens 10 llens lcount ltree s.lencode s.lenbits)
    (hd : SameTree .dists 9 dlens dcount dtree s.distcode s.distbits) : TablesOk s := by
  obtain ⟨lt, hlt, hle, hlb⟩ := hl.table
  obtain ⟨dt, hdt, hde, hdb⟩ := hd.table
  have hlens : llens.length ≤ 286 := by
    cases hl.passed
    assumption
  have hdists : dlens.length ≤ 30 := by
    cases hd.passed
    assumption
  obtain ⟨h1, h2⟩ := InflateState.lens_twoLevel hlens hlt
  obtain ⟨h3, h4⟩ := InflateState.dists_twoLevel hdists hdt
  exact ⟨by rw [hle, hlb]; exact h1, by rw [hlb]; exact h2, by rw [hde, hdb]; exact h3,
    by rw [hdb]; exact h4⟩

/-- The four pieces of a match, one above the other, in trees whose codes have their lengths. -/
theorem assembleDist_pieces {ltree dtree : CodeTree} {lc d : Nat} (hlc : lc < 256) (hd' : d < 32768)
    (hllen : ltree.len (zngLengthCode.getD lc 0 + 257) ≤ 15)
    (hlt : ltree.code (zngLengthCode.getD lc 0 + 257) < 2 ^ ltree.len (zngLengthCode.getD lc 0 + 257))
    (hdlen : dtree.len (dCode d) ≤ 15) (hdt : dtree.code (dCode d) < 2 ^ dtree.len (dCode d)) :
    let r := assembleDist ltree dtree lc (d + 1)
    let e := lext.getD (zngLengthCode.getD lc 0) 0 &&& 15
    let e' := dext.getD (dCode d) 0 &&& 15
    let lsym := zngLengthCode.getD lc 0 + 257
    r.1 < 2 ^ r.2 ∧ r.2 = ltree.len lsym + e + dtree.len (dCode d) + e' ∧ r.2 ≤ 48 ∧
      BitStream.ofNat r.1 r.2 =
        (((BitStream.ofNat (ltree.code lsym) (ltree.len lsym)).append
          (BitStream.ofNat (lc % 2 ^ e) e)).append
          (BitStream.ofNat (dtree.code (dCode d)) (dtree.len (dCode d)))).append
          (BitStream.ofNat (d % 2 ^ e') e') := by
  obtain ⟨hcode, hlmask, hlextra, -⟩ := length_tables hlc
  obtain ⟨hdcode, -⟩ := distance_tables hd'
  obtain ⟨hdmask, hdextra⟩ := dmask_tables hdcode (show d < 2 ^ 16 by omega)
  have hlx : ∀ c < 29, lext.getD c 0 &&& 15 ≤ 5 := by decide
  have hdx : ∀ c < 30, dext.getD c 0 &&& 15 ≤ 13 := by decide
  intro r e e' lsym
  have hll : ltree.len lsym ≤ 15 := hllen
  have hle : e ≤ 5 := hlx _ hcode
  have hde : e' ≤ 13 := hdx _ hdcode
  have hr : r = assemble (assemble (assemble (ltree.code lsym, ltree.len lsym) (lc % 2 ^ e) e)
      (dtree.code (dCode d)) (dtree.len (dCode d))) (d % 2 ^ e') e' := by
    change assembleDist ltree dtree lc (d + 1) = _
    unfold assembleDist
    dsimp only
    rw [Nat.add_sub_cancel, hlmask, hlextra, hdmask, hdextra]
  have h0 : (ltree.code lsym, ltree.len lsym).1 < 2 ^ (ltree.code lsym, ltree.len lsym).2 := hlt
  obtain ⟨h1, hs1⟩ := assemble_spec h0 (Nat.mod_lt lc (Nat.two_pow_pos e)) (by dsimp only; omega)
  have hn1 : (assemble (ltree.code lsym, ltree.len lsym) (lc % 2 ^ e) e).2 = ltree.len lsym + e := rfl
  generalize assemble (ltree.code lsym, ltree.len lsym) (lc % 2 ^ e) e = a₁ at hr h1 hs1 hn1
  obtain ⟨h2, hs2⟩ := assemble_spec h1 hdt (by omega)
  have hn2 : (assemble a₁ (dtree.code (dCode d)) (dtree.len (dCode d))).2 =
      a₁.2 + dtree.len (dCode d) := rfl
  generalize assemble a₁ (dtree.code (dCode d)) (dtree.len (dCode d)) = a₂ at hr h2 hs2 hn2
  obtain ⟨h3, hs3⟩ := assemble_spec h2 (Nat.mod_lt d (Nat.two_pow_pos e')) (by omega)
  have hn3 : (assemble a₂ (d % 2 ^ e') e').2 = a₂.2 + e' := rfl
  rw [hr]
  refine ⟨h3, by omega, by omega, ?_⟩
  rw [hs3, hs2, hs1]

/-- A literal is read back by the decoder. -/
theorem HasCode.lit_reads {lc : Nat} (h : HasCode .lens ltree s.lencode s.lenbits lc)
    (hlc : lc < 256) (rest : BitStream) :
    Reads s ((BitStream.ofNat (ltree.code lc) (ltree.len lc)).append rest) (.lit lc) (ltree.len lc) := by
  obtain ⟨hsize, k, -, hsel⟩ := h.select _ (ofNat_append_val h.code_lt rest).1
  have hmatch : CodeType.matchSym .lens = 257 := rfl
  have hent : entryFor .lens lc k = { op := 0, bits := k, val := lc } := by
    unfold entryFor
    rw [if_neg (by omega), if_pos (by omega)]
  rw [hent] at hsel
  have hread := Reads.lit (s := s) k lc hlc hsel (by
    change selectBits s.lencode s.lenbits _ ≤ _
    rw [hsize, BitStream.append_len, BitStream.ofNat_len]
    exact Nat.le_add_right _ _)
  rwa [show s.lenSize _ = ltree.len lc from hsize] at hread

/-- So is the end of the block. -/
theorem HasCode.end_reads (h : HasCode .lens ltree s.lencode s.lenbits 256) (rest : BitStream) :
    Reads s ((BitStream.ofNat (ltree.code 256) (ltree.len 256)).append rest) .endBlock
      (ltree.len 256) := by
  obtain ⟨hsize, k, -, hsel⟩ := h.select _ (ofNat_append_val h.code_lt rest).1
  have hread := Reads.endBlock (s := s) k hsel (by
    change selectBits s.lencode s.lenbits _ ≤ _
    rw [hsize, BitStream.append_len, BitStream.ofNat_len]
    exact Nat.le_add_right _ _)
  rwa [show s.lenSize _ = ltree.len 256 from hsize] at hread

/-- A match is read back by the decoder: its length and its distance, and no bits after it. -/
theorem assembleDist_reads {lc d : Nat} (hlc : lc < 256) (hd' : d < 32768)
    (hl : HasCode .lens ltree s.lencode s.lenbits (zngLengthCode.getD lc 0 + 257))
    (hd : HasCode .dists dtree s.distcode s.distbits (dCode d)) (rest : BitStream) :
    Reads s ((BitStream.ofNat (assembleDist ltree dtree lc (d + 1)).1
      (assembleDist ltree dtree lc (d + 1)).2).append rest) (.copy (lc + 3) (d + 1))
      (assembleDist ltree dtree lc (d + 1)).2 := by
  obtain ⟨hcode, -, -, hlval⟩ := length_tables hlc
  obtain ⟨hdcode, hdval⟩ := distance_tables hd'
  have hop : ∀ c < 29, lext.getD c 0 &&& 16 ≠ 0 := by decide
  have hdop : ∀ c < 30, dext.getD c 0 &&& 16 ≠ 0 := by decide
  obtain ⟨-, hsum, -, hpieces⟩ :=
    assembleDist_pieces hlc hd' hl.len_le hl.code_lt hd.len_le hd.code_lt
  rw [hpieces, hsum]
  set e := lext.getD (zngLengthCode.getD lc 0) 0 &&& 15 with he
  set e' := dext.getD (dCode d) 0 &&& 15 with he'
  set lsym := zngLengthCode.getD lc 0 + 257 with hlsymdef
  rw [BitStream.append_assoc, BitStream.append_assoc, BitStream.append_assoc]
  set v₃ := (BitStream.ofNat (d % 2 ^ e') e').append rest with hv₃
  set v₂ := (BitStream.ofNat (dtree.code (dCode d)) (dtree.len (dCode d))).append v₃ with hv₂
  set v₁ := (BitStream.ofNat (lc % 2 ^ e) e).append v₂ with hv₁
  obtain ⟨hlow, hhigh⟩ := ofNat_append_val hl.code_lt v₁
  obtain ⟨hlow₁, hhigh₁⟩ := ofNat_append_val (Nat.mod_lt lc (Nat.two_pow_pos e)) v₂
  obtain ⟨hlow₂, hhigh₂⟩ := ofNat_append_val hd.code_lt v₃
  obtain ⟨hlow₃, -⟩ := ofNat_append_val (Nat.mod_lt d (Nat.two_pow_pos e')) rest
  obtain ⟨hlsize, k, hk, hlsel⟩ := hl.select _ hlow
  obtain ⟨hdsize, k', hk', hdsel⟩ := hd.select _ hlow₂
  set v := (BitStream.ofNat (ltree.code lsym) (ltree.len lsym)).append v₁ with hv
  have hsize : s.lenSize v.val = ltree.len lsym := hlsize
  have hafter : v.val / 2 ^ (ltree.len lsym + e) = v₂.val := by
    rw [Nat.pow_add, ← Nat.div_div_eq_div_mul, hhigh, hhigh₁]
  have hdistSize : s.distSize (v.val / 2 ^ (ltree.len lsym + e)) = dtree.len (dCode d) := by
    rw [hafter]
    exact hdsize
  have hlast : v.val / 2 ^ (ltree.len lsym + e + dtree.len (dCode d)) = v₃.val := by
    rw [Nat.pow_add, ← Nat.div_div_eq_div_mul, hafter, hhigh₂]
  have hlcode : s.lenCode v.val =
      { op := 16 + k, bits := k + e, val := lbase.getD (zngLengthCode.getD lc 0) 0 } := by
    have hsub : lsym - 257 = zngLengthCode.getD lc 0 := Nat.add_sub_cancel _ _
    have hent := @entryFor_base .lens lsym k (Nat.le_add_left _ _)
      (by change lext.getD (lsym - 257) 0 &&& 16 ≠ 0; rw [hsub]; exact hop _ hcode) hk
    change entryFor .lens lsym k =
      { op := 16 + k, bits := k + (lext.getD (lsym - 257) 0 &&& 15),
        val := lbase.getD (lsym - 257) 0 } at hent
    rw [hsub] at hent
    exact hlsel.trans hent
  have hdistCode : s.distCode (v.val / 2 ^ (ltree.len lsym + e)) =
      { op := 16 + k', bits := k' + e', val := dbase.getD (dCode d) 0 } := by
    have hent := @entryFor_base .dists (dCode d) k' (Nat.zero_le _)
      (hdop _ hdcode) hk'
    rw [hafter]
    exact hdsel.trans hent
  have hlen : ltree.len lsym + e + dtree.len (dCode d) + e' ≤ v.len := by
    simp only [hv, hv₁, hv₂, hv₃, BitStream.append_len, BitStream.ofNat_len]
    omega
  have hcopy := Reads.copy (s := s) (v := v) k e _ k' e' _ (ltree.len lsym + e)
    (ltree.len lsym + e + dtree.len (dCode d)) hk hk' hlcode (by rw [hsize]) hdistCode
    (by rw [hdistSize]) hlen
  rw [hsize, hhigh, hlow₁, hlval, hlast, hlow₃, hdval] at hcopy
  exact hcopy

end Match

/-- Encoder and decoder agree on the codes of complete lengths: every symbol is found from its
code word, and every match of the trees is read back by `LEN` to `DISTEXT`. -/
theorem codes_agree :
    (∀ (type : CodeType) (bits : Nat) (lens : List Nat) (blCount code : Nat → Nat),
      type.Passed lens.length bits → BlCount lens blCount → (∀ len ∈ lens, len ≤ maxBits) →
      Complete lens →
      ∃ t, zngInflateTable type lens bits = .ok t ∧
        ∀ symbol < lens.length, lens.getD symbol 0 ≠ 0 →
          genCodes lens blCount code symbol < 2 ^ lens.getD symbol 0 ∧
          ∀ v, v % 2 ^ lens.getD symbol 0 = genCodes lens blCount code symbol →
            Yields type symbol (t.lookup v).1 ∧ (t.lookup v).2 = lens.getD symbol 0) ∧
    (∀ (s : InflateState) (ltree dtree : CodeTree) (llens dlens : List Nat)
      (lcount dcount : Nat → Nat),
      SameTree .lens 10 llens lcount ltree s.lencode s.lenbits →
      SameTree .dists 9 dlens dcount dtree s.distcode s.distbits → s.mode = .len →
      ∀ len dist, 3 ≤ len → len ≤ 258 → 1 ≤ dist → dist ≤ 32768 →
      zngLengthCode.getD (len - 3) 0 + 257 < llens.length →
      ltree.len (zngLengthCode.getD (len - 3) 0 + 257) ≠ 0 →
      dCode (dist - 1) < dlens.length → dtree.len (dCode (dist - 1)) ≠ 0 →
      (assembleDist ltree dtree (len - 3) dist).2 ≤ 48 ∧
      (assembleDist ltree dtree (len - 3) dist).1 < 2 ^ (assembleDist ltree dtree (len - 3) dist).2 ∧
      ∀ rest : BitStream, ∃ back extra,
        SymbolRun s ((BitStream.ofNat (assembleDist ltree dtree (len - 3) dist).1
          (assembleDist ltree dtree (len - 3) dist).2).append rest)
          (s.atMatch back extra len dist) rest) := by
  refine ⟨fun type bits lens blCount code hp hb hl hc => genCodes_lookup hp hb hl hc code, ?_⟩
  intro s ltree dtree llens dlens lcount dcount hl hd hm len dist h3 h258 h1 h32 hlsym hl0 hdsym hd0
  obtain ⟨d, rfl⟩ := Nat.exists_eq_add_of_le' h1
  obtain ⟨lc, rfl⟩ := Nat.exists_eq_add_of_le' h3
  rw [Nat.add_sub_cancel] at hdsym hd0 hlsym hl0 ⊢
  have hlc := hl.hasCode hlsym hl0
  have hdc := hd.hasCode hdsym hd0
  obtain ⟨hlt, -, h48, -⟩ := assembleDist_pieces (show lc < 256 by omega) (show d < 32768 by omega)
    hlc.len_le hlc.code_lt hdc.len_le hdc.code_lt
  refine ⟨h48, hlt, fun rest => ?_⟩
  have hreads :=
    assembleDist_reads (show lc < 256 by omega) (show d < 32768 by omega) hlc hdc rest
  obtain ⟨back, extra, hrun⟩ := hreads.copy_run (hl.tablesOk hd) hm
  refine ⟨back, extra, ?_⟩
  rw [BitStream.drop_ofNat_append] at hrun
  exact hrun

/-- The tree of the lengths, with the codes that `gen_codes` assigns. -/
def CodeTree.ofLens (lens : List Nat) : CodeTree :=
  ⟨genCodes lens (fun l => if l = 0 then 0 else countLengths lens l) fun _ => 0,
    fun n => lens.getD n 0⟩

theorem SameTree.ofLens {type : CodeType} {bits : Nat} {lens : List Nat} {t : DecodeTable}
    (hp : type.Passed lens.length bits) (hl : ∀ len ∈ lens, len ≤ maxBits) (hc : Complete lens)
    (ht : zngInflateTable type lens bits = .ok t) :
    SameTree type bits lens (fun l => if l = 0 then 0 else countLengths lens l)
      (CodeTree.ofLens lens) t.entry t.bits :=
  ⟨hp, ⟨rfl, fun _ h1 _ => if_neg (by omega)⟩, hl, hc, fun _ _ => rfl, ⟨fun _ => 0, fun _ => rfl⟩,
    t, ht, rfl, rfl⟩

/-- The end of the block and the shortest match, one bit each. -/
def endAndThree : List Nat := List.replicate 256 0 ++ [1, 1]

/-- Three code length symbols; a match of three bytes at distance one, in trees of two codes. -/
theorem codes_agree_three :
    (∃ t, zngInflateTable .codes [2, 1, 2] 7 = .ok t ∧ ∀ symbol < 3, [2, 1, 2].getD symbol 0 ≠ 0 →
      (CodeTree.ofLens [2, 1, 2]).code symbol < 2 ^ [2, 1, 2].getD symbol 0 ∧
      ∀ v, v % 2 ^ [2, 1, 2].getD symbol 0 = (CodeTree.ofLens [2, 1, 2]).code symbol →
        Yields .codes symbol (t.lookup v).1 ∧ (t.lookup v).2 = [2, 1, 2].getD symbol 0) ∧
    ∃ s : InflateState, ∀ rest : BitStream, ∃ back extra,
      SymbolRun s ((BitStream.ofNat
        (assembleDist (CodeTree.ofLens endAndThree) (CodeTree.ofLens [1, 1]) 0 1).1
        (assembleDist (CodeTree.ofLens endAndThree) (CodeTree.ofLens [1, 1]) 0 1).2).append rest)
        (s.atMatch back extra 3 1) rest := by
  have hcount (lens : List Nat) : BlCount lens fun l => if l = 0 then 0 else countLengths lens l :=
    ⟨rfl, fun l h1 _ => if_neg (by omega)⟩
  refine ⟨codes_agree.1 .codes 7 [2, 1, 2] _ _ (.codes (by decide)) (hcount _) (by decide) rfl, ?_⟩
  have hle : ∀ len ∈ endAndThree, len ≤ maxBits := by decide +kernel
  have hcomplete : Complete endAndThree := by
    unfold Complete
    decide +kernel
  have hpassed : CodeType.Passed .lens endAndThree.length 10 := .lens (by decide +kernel)
  have hdpassed : CodeType.Passed .dists [1, 1].length 9 := .dists (by decide)
  obtain ⟨lt, hlt, -⟩ := (zngInflateTable_canonical hpassed hle).1 (.inl hcomplete)
  obtain ⟨dt, hdt, -⟩ := (@zngInflateTable_canonical .dists [1, 1] 9 hdpassed (by decide)).1 (.inl rfl)
  have hl := SameTree.ofLens hpassed hle hcomplete hlt
  have hd := SameTree.ofLens hdpassed (by decide) rfl hdt
  have hone : (CodeTree.ofLens endAndThree).len 257 ≠ 0 := by decide +kernel
  have hrun := codes_agree.2
    { InflateState.zeroed with
      mode := .len, lencode := lt.entry, lenbits := lt.bits, distcode := dt.entry,
      distbits := dt.bits }
    _ _ _ _ _ _ hl hd rfl 3 1 (by decide) (by decide) (by decide) (by decide) (by decide +kernel)
    hone (by decide +kernel) (by decide +kernel)
  exact ⟨_, hrun.2.2⟩

end ZlibNg
