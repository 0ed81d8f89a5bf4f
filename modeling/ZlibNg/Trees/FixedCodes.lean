import ZlibNg.Trees.LiteralRun

/-! The fixed codes: the encoder's static trees and the decoder's fixed tables agree. -/
namespace ZlibNg

/-- A code that the table has at every index that ends in it. -/
theorem HasCode.of_table {type : CodeType} {n bits symbol : Nat} {tree : CodeTree} {t : DecodeTable}
    (hp : type.Passed n bits) (hs : symbol < n) (hlen : tree.len symbol ≤ t.bits)
    (hbits : t.bits ≤ maxBits) (hcode : tree.code symbol < 2 ^ tree.len symbol)
    (hall : ∀ j < 2 ^ (t.bits - tree.len symbol),
      t.entry (tree.code symbol + 2 ^ tree.len symbol * j) = entryFor type symbol (tree.len symbol)) :
    HasCode type tree t.entry t.bits symbol := by
  refine ⟨hlen.trans hbits, hcode, fun v hv => ?_⟩
  obtain ⟨e, he⟩ := Nat.exists_eq_add_of_le hlen
  have hindex : v % 2 ^ t.bits =
      tree.code symbol + 2 ^ tree.len symbol * (v / 2 ^ tree.len symbol % 2 ^ e) := by
    rw [he, Nat.pow_add, Nat.mod_mul, hv]
  refine DecodeTable.Finds.select hp hs (hlen.trans hbits) hbits (.inl ⟨hlen, ?_⟩)
  rw [hindex]
  exact hall _ (by rw [he, Nat.add_sub_cancel_left]; exact Nat.mod_lt _ (Nat.two_pow_pos e))

/-- The lengths in the static tree of the literals and lengths. -/
def staticLen (n : Nat) : Nat := if n < 144 then 8 else if n < 256 then 9 else if n < 280 then 7 else 8

/-- Its code words, highest bit first. -/
def staticWord (n : Nat) : Nat :=
  if n < 144 then 0x30 + n
  else if n < 256 then 0x190 + (n - 144)
  else if n < 280 then n - 256
  else 0xc0 + (n - 280)

theorem staticLen_eq {n : Nat} (h : n < 288) : staticLtree.getD n 0 = staticLen n := by
  have hall : ∀ r ∈ staticLtree.zipIdx, r.1 = staticLen r.2 := by decide +kernel
  have hlen : staticLtree.length = 288 := by decide +kernel
  exact getD_of_zipIdx hall 0 (hlen ▸ h)

theorem staticLen_bounds (n : Nat) : 7 ≤ staticLen n ∧ staticLen n ≤ 9 := by
  unfold staticLen
  split_ifs <;> decide

/-- The rank of a symbol among those of its length. -/
theorem count_staticLen {n : Nat} (h : n < 286) : (staticLtree.take n).count (staticLen n) =
    if n < 144 then n else if n < 256 then n - 144 else if n < 280 then n - 256
    else 144 + (n - 280) := by
  simp only [staticLtree, List.take_append, List.take_replicate, List.count_append,
    List.count_replicate, List.length_append, List.length_replicate, beq_iff_eq]
  unfold staticLen
  by_cases h1 : n < 144
  · simp only [if_pos h1]
    simp
    omega
  · by_cases h2 : n < 256
    · simp only [if_neg h1, if_pos h2]
      simp
      omega
    · by_cases h3 : n < 280
      · simp only [if_neg h1, if_neg h2, if_pos h3]
        simp
        omega
      · simp only [if_neg h1, if_neg h2, if_neg h3]
        simp
        omega

theorem staticWord_eq {n : Nat} (h : n < 286) : canonicalCode staticLtree n = staticWord n := by
  have hnext : ∀ len, 7 ≤ len → len ≤ 9 →
      nextCode staticLtree len = if len = 7 then 0 else if len = 8 then 0x30 else 0x190 := by
    decide +kernel
  obtain ⟨h7, h9⟩ := staticLen_bounds n
  rw [canonicalCode, rankOf, staticLen_eq (by omega), hnext _ h7 h9, count_staticLen h]
  unfold staticLen staticWord
  split_ifs <;> omega

theorem staticLcodes_code {n : Nat} (h : n < 286) :
    staticLcodes.code n = biReverse (staticWord n) (staticLen n) := by
  have hle : ∀ len ∈ staticLtree, len ≤ maxBits := by decide +kernel
  have hcomplete : Complete staticLtree := by
    unfold Complete
    decide +kernel
  have hlen : staticLtree.length = 288 := by decide +kernel
  have hcount : BlCount staticLtree fun len => staticLtree.count len :=
    ⟨by decide +kernel, fun _ _ _ => rfl⟩
  have hpos := (staticLen_bounds n).1
  have htree : staticLcodes.code =
      genCodes staticLtree (fun len => staticLtree.count len) fun _ => 0 := by rw [staticLcodes]
  have hcode := genCodes_eq hcount hle hcomplete (fun _ => 0) (show n < staticLtree.length by omega)
    (by rw [staticLen_eq (by omega)]; omega)
  rw [staticWord_eq h, staticLen_eq (by omega)] at hcode
  rw [htree]
  exact hcode

/-- The symbol at an index of the table of the lengths. -/
def fixedSymbol (i : Nat) : Nat :=
  let word := biReverse i 9
  if word < 0x60 then 256 + word / 4
  else if word < 0x180 then word / 2 - 0x30
  else if word < 0x190 then 280 + (word / 2 - 0xc0)
  else 144 + (word - 0x190)

/-- The literals, the end of the block and the lengths, in a block of static codes. -/
theorem staticLcodes_hasCode (s : InflateState) {n : Nat} (h : n < 286) :
    HasCode .lens staticLcodes s.fixedtables.lencode s.fixedtables.lenbits n := by
  have htable : ∀ r ∈ lenfix.zipIdx, fixedSymbol r.2 < 286 →
      r.1 = entryFor .lens (fixedSymbol r.2) (staticLen (fixedSymbol r.2)) := by decide +kernel
  have hindex : ∀ n < 286, ∀ j < 2 ^ (9 - staticLen n),
      biReverse (staticWord n) (staticLen n) + 2 ^ staticLen n * j < 512 ∧
        fixedSymbol (biReverse (staticWord n) (staticLen n) + 2 ^ staticLen n * j) = n := by
    decide +kernel
  have hsize : lenfix.length = 512 := by decide +kernel
  have hlen : staticLcodes.len n = staticLen n := staticLen_eq (by omega)
  refine @HasCode.of_table .lens 286 10 n staticLcodes ⟨fun i => lenfix.getD i default, 9, 512⟩
    (.lens (Nat.le_refl _)) h (hlen.le.trans (staticLen_bounds n).2) (show 9 ≤ 15 by decide)
    (staticLcodes_proper.lt n h) fun j hj => ?_
  rw [hlen] at hj ⊢
  rw [staticLcodes_code h]
  obtain ⟨hlt, hsym⟩ := hindex n h j hj
  have hentry := getD_of_zipIdx htable default (hsize ▸ hlt)
  rw [hsym] at hentry
  exact hentry h

/-- The distances. -/
theorem staticDcodes_hasCode (s : InflateState) {n : Nat} (h : n < 30) :
    HasCode .dists staticDcodes s.fixedtables.distcode s.fixedtables.distbits n := by
  have hall : ∀ n < 30, staticDcodes.len n = 5 ∧
      distfix.getD (staticDcodes.code n) default = entryFor .dists n 5 := by
    decide +kernel
  obtain ⟨hlen, hentry⟩ := hall n h
  refine @HasCode.of_table .dists 30 9 n staticDcodes ⟨fun i => distfix.getD i default, 5, 32⟩
    (.dists (Nat.le_refl _)) h hlen.le (show 5 ≤ 15 by decide) (staticDcodes_proper.lt n h) ?_
  intro j hj
  rw [hlen] at hj ⊢
  obtain rfl : j = 0 := by
    change j < 1 at hj
    omega
  exact hentry

end ZlibNg
