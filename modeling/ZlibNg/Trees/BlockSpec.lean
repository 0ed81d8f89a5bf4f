import ZlibNg.Trees.Block
import ZlibNg.Trees.CodesSpec
import ZlibNg.Trees.Counters

/-! The bits of a block: the emission writes as many as the counters of the trees say. -/
namespace ZlibNg

open Finset

/-- A call that writes `n` bits, and leaves room in the bit buffer. -/
def Emits (f : BitWriter → Option BitWriter) (n : Nat) : Prop :=
  ∀ w, w.biValid < 64 → ∃ w', f w = some w' ∧ w'.biValid < 64 ∧ w'.total = w.total + n

namespace Emits

theorem bind {f g : BitWriter → Option BitWriter} {m n : Nat} (hf : Emits f m) (hg : Emits g n) :
    Emits (fun w => (f w).bind g) (m + n) := by
  intro w hw
  obtain ⟨w₁, h1, hw1, ht1⟩ := hf w hw
  obtain ⟨w₂, h2, hw2, ht2⟩ := hg w₁ hw1
  refine ⟨w₂, ?_, hw2, by rw [ht2, ht1, Nat.add_assoc]⟩
  change (f w).bind g = some w₂
  rw [h1]
  exact h2

theorem foldlM {α : Type} {f : BitWriter → α → Option BitWriter} {n : α → Nat} {xs : List α}
    (h : ∀ x ∈ xs, Emits (fun w => f w x) (n x)) :
    Emits (fun w => xs.foldlM f w) (xs.map n).sum := by
  induction xs with
  | nil => exact fun w hw => ⟨w, rfl, hw, rfl⟩
  | cons x xs ih =>
    rw [List.map_cons, List.sum_cons]
    exact (h x List.mem_cons_self).bind (ih fun y hy => h y (List.mem_cons_of_mem _ hy))

theorem sendBits (value : Nat) {length : Nat} (h : length ≤ 64) :
    Emits (BitWriter.sendBits value length) length := by
  intro w hw
  unfold BitWriter.sendBits
  dsimp only
  rw [if_neg (Nat.not_le_of_lt hw)]
  by_cases hfull : 64 ≤ w.biValid + length
  · rw [if_pos hfull]
    refine ⟨_, rfl, ?_, ?_⟩
    · dsimp only
      omega
    · simp only [BitWriter.total, BitWriter.put, List.length_append, length_leBytes]
      omega
  · rw [if_neg hfull]
    exact ⟨_, rfl, Nat.lt_of_not_le hfull, (Nat.add_assoc _ _ _).symm⟩

theorem sendCode (tree : CodeTree) (c : Nat) (h : tree.len c ≤ 15) :
    Emits (BitWriter.sendCode tree c) (tree.len c) := sendBits _ (by omega)

/-- A flush makes room for 56 bits, which a merge then takes. -/
theorem flushMerge (value : Nat) {length : Nat} (h : length ≤ 56) :
    Emits (fun w => w.sendBitsFlush.bind fun w => w.sendBitsMerge value length) length := by
  intro w hw
  unfold BitWriter.sendBitsFlush
  dsimp only
  rw [if_neg (by omega), Option.bind_some]
  unfold BitWriter.sendBitsMerge
  dsimp only
  rw [if_neg (by omega)]
  refine ⟨_, rfl, ?_, ?_⟩
  · dsimp only
    omega
  · simp only [BitWriter.total, List.length_append, List.length_take, length_leBytes]
    omega

end Emits

/-- The bits of a symbol of the buffer. -/
def BufferedSym.bits (ltree dtree : CodeTree) (x : BufferedSym) : Nat :=
  if x.dist = 0 then ltree.len x.lc else (assembleDist ltree dtree x.lc x.dist).2

/-- The lengths of a tree that the symbols need. -/
structure CodeTree.Short (tree : CodeTree) (elems : Nat) : Prop where
  le : ∀ n < elems, tree.len n ≤ 15

theorem foldl_assembleLit (ltree : CodeTree) (xs : List BufferedSym) (s : Nat × Nat) :
    (xs.foldl (BitWriter.assembleLit ltree) s).2 = s.2 + (xs.map fun x => ltree.len x.lc).sum := by
  induction xs generalizing s with
  | nil => rfl
  | cons x xs ih =>
    rw [List.foldl_cons, ih, List.map_cons, List.sum_cons, ← Nat.add_assoc]
    rfl

/-- The literals merged are at most two more, and have no distance. -/
theorem nextLiterals_spec (xs : List BufferedSym) : BitWriter.nextLiterals xs ≤ 2 ∧
    ∀ x ∈ xs.take (BitWriter.nextLiterals xs), x.dist = 0 := by
  unfold BitWriter.nextLiterals
  split
  · next x y z rest =>
    by_cases hx : x.dist = 0
    · rw [if_pos hx]
      by_cases hy : y.dist = 0
      · rw [if_pos hy]
        refine ⟨Nat.le_refl 2, fun a ha => ?_⟩
        simp only [List.take_succ_cons, List.take_zero, List.mem_cons, List.not_mem_nil,
          or_false] at ha
        rcases ha with rfl | rfl
        · exact hx
        · exact hy
      · rw [if_neg hy]
        refine ⟨by decide, fun a ha => ?_⟩
        simp only [List.take_succ_cons, List.take_zero, List.mem_cons, List.not_mem_nil,
          or_false] at ha
        exact ha ▸ hx
    · rw [if_neg hx]
      exact ⟨by decide, fun a ha => absurd ha (by simp)⟩
  · exact ⟨by decide, fun a ha => absurd ha (by simp)⟩

theorem assembleDist_len {ltree dtree : CodeTree} {lc dist : Nat} (hlc : lc < 256)
    (hd : dist - 1 < 32768) :
    (assembleDist ltree dtree lc dist).2 =
      ltree.len (zngLengthCode.getD lc 0 + 256 + 1) + extraLbits.getD (zngLengthCode.getD lc 0) 0 +
        dtree.len (dCode (dist - 1)) + extraDbits.getD (dCode (dist - 1)) 0 := by
  have hl : ∀ code < 29, lmaskExtra.getD code 0 >>> 8 = extraLbits.getD code 0 := by decide
  have hdist : ∀ code < 30, dmaskExtra.getD code 0 >>> 16 = extraDbits.getD code 0 := by decide
  rw [← hl _ (length_tables hlc).1, ← hdist _ (distance_tables hd).1]
  rfl

theorem BufferedSym.bits_le {ltree dtree : CodeTree} (hl : ltree.Short 286) (hd : dtree.Short 30)
    (x : BufferedSym) : x.bits ltree dtree ≤ 48 := by
  unfold BufferedSym.bits
  split
  · exact (hl.le _ (x.lc_lt.trans (by decide))).trans (by decide)
  · have hlt : x.dist - 1 < 32768 := by
      have := x.dist_le
      omega
    rw [assembleDist_len x.lc_lt hlt]
    have hcode := (length_tables x.lc_lt).1
    have hdcode := (distance_tables hlt).1
    have hxl : ∀ code < 29, extraLbits.getD code 0 ≤ 5 := by decide
    have hxd : ∀ code < 30, extraDbits.getD code 0 ≤ 13 := by decide
    have h1 := hl.le (zngLengthCode.getD x.lc 0 + 256 + 1) (by omega)
    have h2 := hd.le _ hdcode
    have h3 := hxl _ hcode
    have h4 := hxd _ hdcode
    omega

theorem compressLoop_emits {ltree dtree : CodeTree} (hl : ltree.Short 286) (hd : dtree.Short 30)
    (syms : List BufferedSym) :
    Emits (BitWriter.compressLoop ltree dtree syms) (syms.map fun x => x.bits ltree dtree).sum := by
  induction hn : syms.length using Nat.strong_induction_on generalizing syms with
  | _ n ih =>
    subst hn
    cases syms with
    | nil =>
      intro w hw
      exact ⟨w, by rw [BitWriter.compressLoop], hw, rfl⟩
    | cons x rest =>
      rw [List.map_cons, List.sum_cons]
      by_cases hx : x.dist = 0
      · -- the literal and the ones merged with it
        obtain ⟨hmore, hlits⟩ := nextLiterals_spec rest
        have hloop : BitWriter.compressLoop ltree dtree (x :: rest) = fun w =>
            (w.sendBitsFlush.bind fun w => w.sendBitsMerge
              ((x :: rest.take (BitWriter.nextLiterals rest)).foldl
                (BitWriter.assembleLit ltree) (0, 0)).1
              ((x :: rest.take (BitWriter.nextLiterals rest)).foldl
                (BitWriter.assembleLit ltree) (0, 0)).2).bind
            (BitWriter.compressLoop ltree dtree (rest.drop (BitWriter.nextLiterals rest))) := by
          funext w
          rw [BitWriter.compressLoop, Option.bind_assoc]
          simp only [if_pos hx]
          rfl
        generalize BitWriter.nextLiterals rest = more at *
        have hsum : (rest.map fun x => x.bits ltree dtree).sum =
            ((rest.take more).map fun x => ltree.len x.lc).sum +
              ((rest.drop more).map fun x => x.bits ltree dtree).sum := by
          conv_lhs => rw [← List.take_append_drop more rest, List.map_append, List.sum_append]
          congr 2
          exact List.map_congr_left fun y hy => if_pos (hlits y hy)
        have hlen := foldl_assembleLit ltree (x :: rest.take more) (0, 0)
        rw [List.map_cons, List.sum_cons, Nat.zero_add] at hlen
        have hshort : ((rest.take more).map fun x => ltree.len x.lc).sum ≤ 30 := by
          have hle := List.sum_le_card_nsmul ((rest.take more).map fun x => ltree.len x.lc) 15
            fun n hn => by
              obtain ⟨y, -, rfl⟩ := List.mem_map.mp hn
              exact hl.le _ (y.lc_lt.trans (by decide))
          rw [List.length_map, smul_eq_mul] at hle
          have := List.length_take_le more rest
          omega
        have hfirst := hl.le x.lc (x.lc_lt.trans (by decide))
        rw [hloop, hsum, show x.bits ltree dtree = ltree.len x.lc from if_pos hx, ← Nat.add_assoc,
          ← hlen]
        exact (Emits.flushMerge _ (by omega)).bind (ih _ (by
          rw [List.length_drop, List.length_cons]
          omega) _ rfl)
      · have hloop : BitWriter.compressLoop ltree dtree (x :: rest) = fun w =>
            (w.sendBitsFlush.bind fun w => w.sendBitsMerge
              (assembleDist ltree dtree x.lc x.dist).1 (assembleDist ltree dtree x.lc x.dist).2).bind
            (BitWriter.compressLoop ltree dtree rest) := by
          funext w
          rw [BitWriter.compressLoop, Option.bind_assoc]
          simp only [if_neg hx]
          rfl
        have hbits : x.bits ltree dtree = (assembleDist ltree dtree x.lc x.dist).2 := if_neg hx
        have hle := x.bits_le hl hd
        rw [hloop, hbits]
        exact (Emits.flushMerge _ (by omega)).bind (ih _ (Nat.lt_succ_self _) _ rfl)

theorem compressBlock_emits {ltree dtree : CodeTree} (hl : ltree.Short 286) (hd : dtree.Short 30)
    (syms : List BufferedSym) :
    Emits (BitWriter.compressBlock ltree dtree syms)
      ((syms.map fun x => x.bits ltree dtree).sum + ltree.len 256) :=
  (compressLoop_emits hl hd syms).bind (Emits.sendCode ltree 256 (hl.le 256 (by decide)))

theorem sendLens_emits {bl : CodeTree} (hbl : bl.Short 19) {xs : List LenSym}
    (hxs : ∀ x ∈ xs, x.Proper) :
    Emits (BitWriter.sendLens bl xs) (xs.map fun x => bl.len x.sym + x.extraBits).sum := by
  refine Emits.foldlM fun x hx => ?_
  obtain ⟨hsym, hextra⟩ := hxs x hx
  have hsmall : x.extraBits ≤ 64 := by
    rw [hextra]
    split_ifs <;> decide
  refine (Emits.sendCode bl x.sym (hbl.le _ hsym)).bind fun w hw => ?_
  by_cases h0 : x.extraBits = 0
  · rw [if_pos h0, h0]
    exact ⟨w, rfl, hw, rfl⟩
  · rw [if_neg h0]
    exact Emits.sendBits x.extra hsmall w hw

theorem sum_addFreq {elems b : Nat} (hb : b < elems) (f : Nat → Nat) (c : Nat) (w : Nat → Nat) :
    ∑ n ∈ range elems, addFreq f b c n * w n = ∑ n ∈ range elems, f n * w n + c * w b := by
  have hterm : ∀ n ∈ range elems, addFreq f b c n * w n = f n * w n + if b = n then c * w b else 0 := by
    intro n _
    rw [addFreq_apply]
    by_cases hn : b = n
    · rw [if_pos hn, if_pos hn, hn, Nat.add_mul]
    · rw [if_neg hn, if_neg hn, Nat.add_zero, Nat.add_zero]
  rw [sum_congr rfl hterm, sum_add_distrib, sum_ite_eq (range elems) b fun _ => c * w b,
    if_pos (mem_range.mpr hb)]

/-- A weight of the symbols of the two trees, for an entry of the buffer. -/
def BufferedSym.weight (wl wd : Nat → Nat) (x : BufferedSym) : Nat :=
  if x.dist = 0 then wl x.lc else wl (zngLengthCode.getD x.lc 0 + 256 + 1) + wd (dCode (x.dist - 1))

theorem BufferedSym.pred_lt (x : BufferedSym) : x.dist - 1 < 32768 := by
  have := x.dist_le
  omega

section Tally
variable {nl nd : Nat} (hnl : 286 ≤ nl) (hnd : 30 ≤ nd) (wl wd : Nat → Nat)
include hnl hnd

theorem tally_sum (xs : List BufferedSym) (s : (Nat → Nat) × (Nat → Nat)) :
    ∑ n ∈ range nl, (xs.foldl tally s).1 n * wl n + ∑ n ∈ range nd, (xs.foldl tally s).2 n * wd n =
      ∑ n ∈ range nl, s.1 n * wl n + ∑ n ∈ range nd, s.2 n * wd n +
        (xs.map (BufferedSym.weight wl wd)).sum := by
  induction xs generalizing s with
  | nil => exact (Nat.add_zero _).symm
  | cons x xs ih =>
    rw [List.foldl_cons, ih, List.map_cons, List.sum_cons, ← Nat.add_assoc]
    congr 1
    unfold tally BufferedSym.weight
    have hlc := x.lc_lt
    have hcode := (length_tables hlc).1
    have hdcode := (distance_tables x.pred_lt).1
    by_cases hx : x.dist = 0
    · rw [if_pos hx, if_pos hx, sum_addFreq (by omega), Nat.one_mul]
      exact Nat.add_right_comm _ _ _
    · rw [if_neg hx, if_neg hx, sum_addFreq (by omega), sum_addFreq (by omega), Nat.one_mul, Nat.one_mul]
      exact Nat.add_add_add_comm _ _ _ _

/-- The frequencies of a block count its symbols and its end. -/
theorem freqs_sum (syms : List BufferedSym) :
    ∑ n ∈ range nl, (syms.foldl tally initBlock).1 n * wl n +
        ∑ n ∈ range nd, (syms.foldl tally initBlock).2 n * wd n =
      wl 256 + (syms.map (BufferedSym.weight wl wd)).sum := by
  have hend : ∀ n, initBlock.1 n * wl n = if 256 = n then wl 256 else 0 := by
    intro n
    unfold initBlock
    dsimp only
    by_cases hn : 256 = n
    · rw [if_pos hn, ← hn, Function.update_self, Nat.one_mul]
    · rw [if_neg hn, Function.update_of_ne (Ne.symm hn), Nat.zero_mul]
  have hnone : ∀ n, initBlock.2 n * wd n = 0 := fun n => Nat.zero_mul _
  rw [tally_sum hnl hnd, sum_congr rfl fun n _ => hend n, sum_congr rfl fun n _ => hnone n,
    sum_const_zero, Nat.add_zero, sum_ite_eq (range nl) 256 fun _ => wl 256,
    if_pos (mem_range.mpr (by omega))]

end Tally

theorem list_sum_range (f : Nat → Nat) (n : Nat) : ((List.range n).map f).sum = ∑ i ∈ range n, f i :=
  rfl

/-- There are no more symbols in a tree than in the buffer, but for the end of the block. -/
theorem freqs_le {nl nd : Nat} (hnl : 286 ≤ nl) (hnd : 30 ≤ nd) (syms : List BufferedSym) :
    ((List.range nl).map (syms.foldl tally initBlock).1).sum ≤ syms.length + 1 ∧
      ((List.range nd).map (syms.foldl tally initBlock).2).sum ≤ syms.length := by
  have hl := freqs_sum hnl hnd (fun _ => 1) (fun _ => 0) syms
  have hd := freqs_sum hnl hnd (fun _ => 0) (fun _ => 1) syms
  have hweight : ∀ c c' : Nat, c ≤ 1 → c + c' ≤ 1 →
      (syms.map (BufferedSym.weight (fun _ => c) fun _ => c')).sum ≤ syms.length := by
    intro c c' hc hcc
    have hle := List.sum_le_card_nsmul (syms.map (BufferedSym.weight (fun _ => c) fun _ => c')) 1
      fun n hn => by
        obtain ⟨x, -, rfl⟩ := List.mem_map.mp hn
        unfold BufferedSym.weight
        split
        · exact hc
        · exact hcc
    rwa [List.length_map, smul_eq_mul, Nat.mul_one] at hle
  have h1 := hweight 1 0 (by decide) (by decide)
  have h2 := hweight 0 1 (by decide) (by decide)
  simp only [Nat.mul_one, Nat.mul_zero, sum_const_zero, Nat.add_zero, Nat.zero_add] at hl hd
  rw [list_sum_range, list_sum_range]
  omega

/-- There are no more symbols than the counters of the trees hold. -/
theorem SymBuf.freqs_le {nl nd : Nat} (hnl : 286 ≤ nl) (hnd : 30 ≤ nd) (b : SymBuf) :
    ((List.range nl).map b.freqs.1).sum ≤ 32768 ∧ ((List.range nd).map b.freqs.2).sum ≤ 32768 := by
  have hroom := b.room
  have hbuf := b.litBufsize_le
  obtain ⟨h1, h2⟩ := ZlibNg.freqs_le hnl hnd b.syms
  exact ⟨h1.trans (by omega), h2.trans (by omega)⟩

/-- A weight of the symbols sent, by their counts. -/
theorem count_sum {elems : Nat} {xs : List LenSym} (h : ∀ x ∈ xs, x.sym < elems) (w : Nat → Nat) :
    ∑ n ∈ range elems, xs.countP (·.sym = n) * w n = (xs.map fun x => w x.sym).sum := by
  induction xs with
  | nil => exact sum_eq_zero fun n _ => Nat.zero_mul _
  | cons x xs ih =>
    have hx := h x List.mem_cons_self
    have hterm : ∀ n ∈ range elems, (x :: xs).countP (·.sym = n) * w n =
        xs.countP (·.sym = n) * w n + if x.sym = n then w x.sym else 0 := by
      intro n _
      rw [List.countP_cons, Nat.add_mul]
      by_cases hn : x.sym = n
      · rw [if_pos (decide_eq_true hn), if_pos hn, hn, Nat.one_mul]
      · rw [if_neg (by simpa using hn), if_neg hn, Nat.zero_mul]
    rw [sum_congr rfl hterm, sum_add_distrib, sum_ite_eq (range elems) x.sym fun _ => w x.sym,
      if_pos (mem_range.mpr hx), ih fun y hy => h y (List.mem_cons_of_mem _ hy), List.map_cons,
      List.sum_cons, Nat.add_comm]

/-- The extra bits of an entry are those of its symbols. -/
theorem BufferedSym.weight_eq (ltree dtree : CodeTree) (x : BufferedSym) :
    x.weight (fun n => ltree.len n + TreeKind.literal.desc.xbits n)
      (fun n => dtree.len n + TreeKind.distance.desc.xbits n) = x.bits ltree dtree := by
  have hl : ∀ n, TreeKind.literal.desc.xbits n = if 257 ≤ n then extraLbits.getD (n - 257) 0 else 0 :=
    fun _ => rfl
  have hd : ∀ n, TreeKind.distance.desc.xbits n = extraDbits.getD n 0 := fun n => if_pos (Nat.zero_le n)
  unfold BufferedSym.weight BufferedSym.bits
  by_cases hx : x.dist = 0
  · have hlt := x.lc_lt
    rw [if_pos hx, if_pos hx]
    dsimp only
    rw [hl, if_neg (by omega), Nat.add_zero]
  · rw [if_neg hx, if_neg hx, assembleDist_len x.lc_lt x.pred_lt]
    dsimp only
    rw [hl, hd, if_pos (by omega),
      show zngLengthCode.getD x.lc 0 + 256 + 1 - 257 = zngLengthCode.getD x.lc 0 by omega]
    omega

theorem short_of_built {kind : TreeKind} {freq : Nat → Nat} {t : BuiltTree}
    (h : t.Huffman kind.desc freq) : t.codeTree.Short kind.desc.elems := by
  have hmax : kind.desc.maxLength ≤ 15 := by cases kind <;> decide
  exact ⟨fun n hn => (h.len_le n hn).trans hmax⟩

theorem lens_le {kind : TreeKind} {freq : Nat → Nat} {t : BuiltTree} (h : t.Huffman kind.desc freq)
    (hmax : t.maxCode < kind.desc.elems) :
    (∀ len ∈ t.lens, len ≤ 15) ∧ t.lens.length ≤ kind.desc.elems := by
  unfold BuiltTree.lens
  refine ⟨fun len hlen => ?_, ?_⟩
  · obtain ⟨n, hn, rfl⟩ := List.mem_map.mp hlen
    have hlt := List.mem_range.mp hn
    exact (short_of_built h).le n (by omega)
  · rw [List.length_map, List.length_range]
    omega

/-- One tree: its codes are short, and the counters grow by the bits of its symbols. -/
theorem buildTree_bits (kind : TreeKind) (freq dl : Nat → Nat) (optLen staticLen : Int)
    (htotal : ((List.range kind.desc.elems).map freq).sum ≤ 65535) :
    ∃ t, buildTree kind.desc freq dl optLen staticLen = some t ∧
      t.codeTree.Short kind.desc.elems ∧ (∀ len ∈ t.lens, len ≤ 15) ∧
      t.lens.length ≤ kind.desc.elems ∧
      (∀ n < kind.desc.elems, freq n ≠ 0 → 1 ≤ t.len n) ∧
      t.optLen = optLen +
        (∑ n ∈ range kind.desc.elems, freq n * (t.len n + kind.desc.xbits n) : Nat) ∧
      (kind.desc.staticTree.isSome → t.staticLen = staticLen +
        (∑ n ∈ range kind.desc.elems, freq n * (kind.desc.staticLen n + kind.desc.xbits n) : Nat)) ∧
      (¬ kind.desc.staticTree.isSome → t.staticLen = staticLen) := by
  obtain ⟨t, ht, hh⟩ := buildTree_huffman kind freq dl optLen staticLen htotal
  obtain ⟨hopt, hstatic, hnone⟩ := buildTree_cost kind freq dl optLen staticLen htotal ht
  have hfreq := freq_lt_of_sum htotal
  obtain ⟨hlens, hlength⟩ := lens_le hh (buildTree_maxCode kind hfreq ht)
  refine ⟨t, ht, short_of_built hh, hlens, hlength, fun n hn h0 => ?_, ?_, fun h => ?_, hnone⟩
  · refine Nat.one_le_iff_ne_zero.mpr ((hh.len_ne_zero n hn).mpr ?_)
    rw [hh.kept n hn h0]
    exact h0
  · rw [hopt]
    push_cast
    rfl
  · rw [hstatic h]
    push_cast
    rfl

/-- The frequencies of the bit length tree count what is sent of the two trees. -/
theorem blFreq_sum {elems : Nat} (helems : 19 ≤ elems) {llens dlens : List Nat}
    (hl : ∀ len ∈ llens, len ≤ 15) (hd : ∀ len ∈ dlens, len ≤ 15) (w : Nat → Nat) :
    ∑ n ∈ range elems, scanTree dlens (scanTree llens fun _ => 0) n * w n =
      ((sendTree llens).map fun x => w x.sym).sum + ((sendTree dlens).map fun x => w x.sym).sum := by
  simp only [scanTree_count, Nat.zero_add, Nat.add_mul, sum_add_distrib]
  rw [count_sum fun x hx => (sendTree_proper hl x hx).1.trans_le helems,
    count_sum fun x hx => (sendTree_proper hd x hx).1.trans_le helems]

theorem literal_elems : 286 ≤ TreeKind.literal.desc.elems := Nat.le_refl _

theorem distance_elems : 30 ≤ TreeKind.distance.desc.elems := Nat.le_refl _

theorem bitLength_elems : 19 ≤ TreeKind.bitLength.desc.elems := Nat.le_refl _

theorem blFreq_le {llens dlens : List Nat} (hl : ∀ len ∈ llens, len ≤ 15)
    (hd : ∀ len ∈ dlens, len ≤ 15) (hln : llens.length ≤ TreeKind.literal.desc.elems)
    (hdn : dlens.length ≤ TreeKind.distance.desc.elems) :
    ((List.range TreeKind.bitLength.desc.elems).map
      (scanTree dlens (scanTree llens fun _ => 0))).sum ≤ 65535 := by
  have hone := blFreq_sum bitLength_elems hl hd fun _ => 1
  simp only [Nat.mul_one, List.map_const', List.sum_replicate, smul_eq_mul] at hone
  have h1 := sendTree_length_le llens
  have h2 := sendTree_length_le dlens
  have h3 : TreeKind.literal.desc.elems + TreeKind.distance.desc.elems ≤ 65535 := by decide
  rw [list_sum_range, hone]
  omega

theorem LenSym.Proper.xbits {x : LenSym} (h : x.Proper) :
    TreeKind.bitLength.desc.xbits x.sym = x.extraBits := by
  obtain ⟨hsym, hextra⟩ := h
  have hall : ∀ n < 19, TreeKind.bitLength.desc.xbits n =
      if n = 16 then 2 else if n = 17 then 3 else if n = 18 then 7 else 0 := by decide
  rw [hall x.sym hsym, hextra]

theorem maxBlindex_le (len : Nat → Nat) (i : Nat) : maxBlindex len i ≤ i := by
  induction i with
  | zero => exact Nat.le_refl 0
  | succ i ih =>
    rw [maxBlindex]
    split
    · exact Nat.le_refl _
    · exact ih.trans (Nat.le_succ i)

theorem sendAllTrees_emits {t : BlockTrees} (hbl : t.bl.codeTree.Short 19)
    (hl : ∀ len ∈ t.l.lens, len ≤ 15) (hd : ∀ len ∈ t.d.lens, len ≤ 15) :
    Emits (BitWriter.sendAllTrees t) (5 + (5 + (4 + (3 * (t.maxBlindex + 1) +
      (((sendTree t.l.lens).map fun x => t.bl.len x.sym + x.extraBits).sum +
        ((sendTree t.d.lens).map fun x => t.bl.len x.sym + x.extraBits).sum))))) := by
  refine (Emits.sendBits _ (by decide)).bind ((Emits.sendBits _ (by decide)).bind
    ((Emits.sendBits _ (by decide)).bind (Emits.bind ?_
      ((sendLens_emits hbl (sendTree_proper hl)).bind (sendLens_emits hbl (sendTree_proper hd))))))
  have hsum : ((List.range (t.maxBlindex + 1)).map fun _ => 3).sum = 3 * (t.maxBlindex + 1) := by
    rw [List.map_const', List.sum_replicate, List.length_range, smul_eq_mul, Nat.mul_comm]
  rw [← hsum]
  exact Emits.foldlM fun rank _ => Emits.sendBits _ (by decide)

/-- The bits of the description of the trees. -/
def BlockTrees.headerBits (t : BlockTrees) : Nat :=
  5 + (5 + (4 + (3 * (t.maxBlindex + 1) +
    (((sendTree t.l.lens).map fun x => t.bl.len x.sym + x.extraBits).sum +
      ((sendTree t.d.lens).map fun x => t.bl.len x.sym + x.extraBits).sum))))

/-- The bits of the symbols of a block, and its end, with given trees. -/
def SymBuf.bits (b : SymBuf) (ltree dtree : CodeTree) : Nat :=
  (b.syms.map fun x => x.bits ltree dtree).sum + ltree.len 256

theorem SymBuf.bits_eq {nl nd : Nat} (hnl : 286 ≤ nl) (hnd : 30 ≤ nd) (b : SymBuf)
    (ltree dtree : CodeTree) :
    ∑ n ∈ range nl, b.freqs.1 n * (ltree.len n + TreeKind.literal.desc.xbits n) +
      ∑ n ∈ range nd, b.freqs.2 n * (dtree.len n + TreeKind.distance.desc.xbits n) =
      b.bits ltree dtree := by
  have hend : TreeKind.literal.desc.xbits 256 = 0 := by decide
  have hmap := List.map_congr_left fun x (_ : x ∈ b.syms) => x.weight_eq ltree dtree
  have hsum := freqs_sum hnl hnd (fun n => ltree.len n + TreeKind.literal.desc.xbits n)
    (fun n => dtree.len n + TreeKind.distance.desc.xbits n) b.syms
  rw [hmap, hend, Nat.add_zero] at hsum
  exact hsum.trans (Nat.add_comm _ _)

structure BlockTrees.Bits (t : BlockTrees) (b : SymBuf) : Prop where
  l : t.l.codeTree.Short 286
  d : t.d.codeTree.Short 30
  bl : t.bl.codeTree.Short 19
  llens : ∀ len ∈ t.l.lens, len ≤ 15
  dlens : ∀ len ∈ t.d.lens, len ≤ 15
  opt : t.optLen = (t.headerBits + b.bits t.l.codeTree t.d.codeTree : Nat)
  static : t.staticLen = (b.bits staticLcodes staticDcodes : Nat)

theorem buildTrees_bits (dl : TreeKind → Nat → Nat) (b : SymBuf) :
    ∃ t, buildTrees dl b.freqs = some t ∧ t.Bits b := by
  obtain ⟨hlt, hdt⟩ := SymBuf.freqs_le literal_elems distance_elems b
  obtain ⟨l, hl, hls, hll, hln, -, hlo, hlst, -⟩ := buildTree_bits .literal b.freqs.1 (dl .literal) 0 0
    (hlt.trans (by decide))
  obtain ⟨d, hd, hds, hdl, hdn, -, hdo, hdst, -⟩ := buildTree_bits .distance b.freqs.2 (dl .distance)
    l.optLen l.staticLen (hdt.trans (by decide))
  have hsum := blFreq_sum bitLength_elems hll hdl
  obtain ⟨bl, hbl, hbs, -, -, -, hbo, -, hbst⟩ := buildTree_bits .bitLength _ (dl .bitLength)
    d.optLen d.staticLen (blFreq_le hll hdl hln hdn)
  have htrees : buildTrees dl b.freqs = some
      { l, d, bl
        maxBlindex := maxBlindex bl.len 18
        optLen := bl.optLen + (3 * (maxBlindex bl.len 18 + 1) + 5 + 5 + 4 : Nat)
        staticLen := bl.staticLen } := by
    unfold buildTrees
    rw [hl, Option.bind_eq_bind, Option.bind_some, hd, Option.bind_some]
    unfold buildBlTree
    dsimp only
    rw [hbl]
    rfl
  refine ⟨_, htrees, hls, hds, hbs, hll, hdl, ?_, ?_⟩
  · have hextra {lens : List Nat} (hlens : ∀ len ∈ lens, len ≤ 15) :
        (sendTree lens).map (fun x => bl.len x.sym + TreeKind.bitLength.desc.xbits x.sym) =
          (sendTree lens).map fun x => bl.len x.sym + x.extraBits :=
      List.map_congr_left fun x hx => by rw [(sendTree_proper hlens x hx).xbits]
    have hbits := SymBuf.bits_eq literal_elems distance_elems b l.codeTree d.codeTree
    unfold BlockTrees.headerBits
    dsimp only
    rw [hbo, hdo, hlo, hsum, hextra hll, hextra hdl, ← hbits]
    dsimp only [BuiltTree.codeTree]
    push_cast
    ring
  · have hbits := SymBuf.bits_eq literal_elems distance_elems b staticLcodes staticDcodes
    dsimp only
    rw [hbst (by decide), hdst rfl, hlst rfl, ← hbits, zero_add, ← Nat.cast_add]
    rfl

theorem tally_le (xs : List BufferedSym) (s : (Nat → Nat) × (Nat → Nat)) (n : Nat) :
    s.1 n ≤ (xs.foldl tally s).1 n ∧ s.2 n ≤ (xs.foldl tally s).2 n := by
  induction xs generalizing s with
  | nil => exact ⟨Nat.le_refl _, Nat.le_refl _⟩
  | cons x xs ih =>
    obtain ⟨h1, h2⟩ := ih (tally s x)
    have hstep : s.1 n ≤ (tally s x).1 n ∧ s.2 n ≤ (tally s x).2 n := by
      unfold tally
      split
      · dsimp only
        rw [addFreq_apply]
        exact ⟨Nat.le_add_right _ _, Nat.le_refl _⟩
      · dsimp only
        rw [addFreq_apply, addFreq_apply]
        exact ⟨Nat.le_add_right _ _, Nat.le_add_right _ _⟩
    exact ⟨hstep.1.trans h1, hstep.2.trans h2⟩

/-- The end of a block is counted. -/
theorem tally_end (xs : List BufferedSym) : (xs.foldl tally initBlock).1 256 ≠ 0 := by
  have hle := (tally_le xs initBlock 256).1
  have hinit : initBlock.1 256 = 1 := by
    unfold initBlock
    dsimp only
    rw [Function.update_self]
  omega

/-- Every symbol is counted. -/
theorem tally_mem {xs : List BufferedSym} {x : BufferedSym} (hx : x ∈ xs)
    (s : (Nat → Nat) × (Nat → Nat)) :
    (x.dist = 0 → (xs.foldl tally s).1 x.lc ≠ 0) ∧
      (x.dist ≠ 0 → (xs.foldl tally s).1 (zngLengthCode.getD x.lc 0 + 256 + 1) ≠ 0 ∧
        (xs.foldl tally s).2 (dCode (x.dist - 1)) ≠ 0) := by
  induction xs generalizing s with
  | nil => exact absurd hx List.not_mem_nil
  | cons y xs ih =>
    rcases List.mem_cons.mp hx with rfl | hx
    · have hone : ∀ (f : Nat → Nat) (n : Nat), 1 ≤ addFreq f n 1 n := by
        intro f n
        rw [addFreq_apply, if_pos rfl]
        exact Nat.le_add_left 1 _
      refine ⟨fun h0 => ?_, fun h0 => ⟨?_, ?_⟩⟩
      · have hle := (tally_le xs (tally s x) x.lc).1
        rw [show (tally s x).1 = addFreq s.1 x.lc 1 by rw [tally, if_pos h0]] at hle
        exact Nat.one_le_iff_ne_zero.mp ((hone _ _).trans hle)
      · have hle := (tally_le xs (tally s x) (zngLengthCode.getD x.lc 0 + 256 + 1)).1
        rw [show (tally s x).1 = addFreq s.1 (zngLengthCode.getD x.lc 0 + 256 + 1) 1 by
          rw [tally, if_neg h0]] at hle
        exact Nat.one_le_iff_ne_zero.mp ((hone _ _).trans hle)
      · have hle := (tally_le xs (tally s x) (dCode (x.dist - 1))).2
        rw [show (tally s x).2 = addFreq s.2 (dCode (x.dist - 1)) 1 by rw [tally, if_neg h0]] at hle
        exact Nat.one_le_iff_ne_zero.mp ((hone _ _).trans hle)
    · exact ih hx (tally s y)

/-- A block with a symbol uses two codes at least: the symbol's, and the end of the block. -/
theorem SymBuf.two_used {nl : Nat} (hnl : 286 ≤ nl) (b : SymBuf) (h : b.syms.length ≠ 0) :
    2 ≤ ((range nl).filter fun n => b.freqs.1 n ≠ 0).card := by
  obtain ⟨bufsize, syms, hbuf, hroom⟩ := b
  unfold SymBuf.freqs
  dsimp only at h ⊢
  cases syms with
  | nil => exact absurd rfl h
  | cons x xs =>
    have hend := tally_end (x :: xs)
    have hsym : ∃ y, y < 286 ∧ y ≠ 256 ∧ (List.foldl tally initBlock (x :: xs)).1 y ≠ 0 := by
      have hlc := x.lc_lt
      have hcode := (length_tables hlc).1
      obtain ⟨hlit, hmatch⟩ := tally_mem (show x ∈ x :: xs from List.mem_cons_self) initBlock
      by_cases hx : x.dist = 0
      · exact ⟨x.lc, by omega, by omega, hlit hx⟩
      · exact ⟨_, by omega, by omega, (hmatch hx).1⟩
    obtain ⟨y, hy, hne, hy0⟩ := hsym
    rw [← card_pair hne]
    refine card_le_card fun n hn => ?_
    rcases mem_insert.mp hn with rfl | hn
    · exact mem_filter.mpr ⟨mem_range.mpr (by omega), hy0⟩
    · obtain rfl := mem_singleton.mp hn
      exact mem_filter.mpr ⟨mem_range.mpr (by omega), hend⟩

/-- Each symbol in use adds its weight. -/
theorem weight_ge {elems k : Nat} {f w : Nat → Nat} (hw : ∀ n < elems, f n ≠ 0 → k ≤ w n) :
    ((range elems).filter fun n => f n ≠ 0).card * k ≤ ∑ n ∈ range elems, f n * w n := by
  calc ((range elems).filter fun n => f n ≠ 0).card * k
      = ∑ n ∈ (range elems).filter fun n => f n ≠ 0, k := (sum_const_nat fun _ _ => rfl).symm
    _ ≤ ∑ n ∈ (range elems).filter fun n => f n ≠ 0, f n * w n := by
        refine sum_le_sum fun n hn => ?_
        obtain ⟨hlt, h0⟩ := mem_filter.mp hn
        exact (hw n (mem_range.mp hlt) h0).trans
          (Nat.le_mul_of_pos_left _ (Nat.pos_of_ne_zero h0))
    _ ≤ ∑ n ∈ range elems, f n * w n :=
        sum_le_sum_of_subset (filter_subset _ _)

/-- The counters on the way through the three trees. -/
def buildTreesTrace (dl : TreeKind → Nat → Nat) (freqs : (Nat → Nat) × (Nat → Nat)) :
    List (Int × Int) :=
  buildTreeTrace TreeKind.literal.desc freqs.1 (dl .literal) 0 0 ++
    ((buildTree TreeKind.literal.desc freqs.1 (dl .literal) 0 0).map fun l =>
      buildTreeTrace TreeKind.distance.desc freqs.2 (dl .distance) l.optLen l.staticLen ++
        ((buildTree TreeKind.distance.desc freqs.2 (dl .distance) l.optLen l.staticLen).map fun d =>
          buildTreeTrace TreeKind.bitLength.desc (scanTree d.lens (scanTree l.lens fun _ => 0))
              (dl .bitLength) d.optLen d.staticLen ++
            ((buildBlTree (dl .bitLength) l d).map fun t => [(t.optLen, t.staticLen)]).getD
              []).getD []).getD []

/-- The counters on the way through `zng_tr_flush_block`. -/
def flushTrace (b : SymBuf) (dl : TreeKind → Nat → Nat) : List (Int × Int) :=
  if b.syms.length = 0 then [(0, 7)] else buildTreesTrace dl b.freqs

theorem weight_le {elems k : Nat} {f w : Nat → Nat} (hw : ∀ n < elems, w n ≤ k) :
    ∑ n ∈ range elems, f n * w n ≤ ((List.range elems).map f).sum * k := by
  rw [list_sum_range, sum_mul]
  exact sum_le_sum fun n hn => Nat.mul_le_mul_left _ (hw n (mem_range.mp hn))

/-- The shortest static code has seven bits. -/
theorem staticLen_ge {n : Nat} (hn : n < TreeKind.literal.desc.elems) :
    7 ≤ TreeKind.literal.desc.staticLen n := by
  have hmem : ∀ x ∈ staticLtree, 7 ≤ x := by decide +kernel
  have hlen : TreeKind.literal.desc.elems ≤ staticLtree.length := by decide +kernel
  change 7 ≤ staticLtree.getD n 0
  rw [List.getD_eq_getElem _ _ (hn.trans_le hlen)]
  exact hmem _ (List.getElem_mem _)

/-- The counters stay within a word. -/
def InWord (c : Int × Int) : Prop := 0 ≤ c.1 ∧ c.1 < 2 ^ 32 ∧ 0 ≤ c.2 ∧ c.2 < 2 ^ 32

theorem flushTrace_inWord (b : SymBuf) (dl : TreeKind → Nat → Nat) :
    ∀ c ∈ flushTrace b dl, InWord c := by
  intro c hc
  unfold InWord
  unfold flushTrace at hc
  by_cases h0 : b.syms.length = 0
  · rw [if_pos h0] at hc
    obtain rfl := List.mem_singleton.mp hc
    dsimp only
    omega
  rw [if_neg h0] at hc
  obtain ⟨hlt, hdt⟩ := SymBuf.freqs_le literal_elems distance_elems b
  obtain ⟨l, hl, hls, hll, hln, hlp, hlo, hlst, -⟩ := buildTree_bits .literal b.freqs.1 (dl .literal)
    0 0 (hlt.trans (by decide))
  obtain ⟨d, hd, hds, hdl, hdn, -, hdo, hdst, -⟩ := buildTree_bits .distance b.freqs.2 (dl .distance)
    l.optLen l.staticLen (hdt.trans (by decide))
  have hblt := blFreq_le hll hdl hln hdn
  obtain ⟨bl, hbl, hbs, -, -, -, hbo, -, hbst⟩ := buildTree_bits .bitLength _ (dl .bitLength)
    d.optLen d.staticLen hblt
  -- no code is forced in the first tree, and it leaves enough for those forced in the others
  have htwo := SymBuf.two_used literal_elems b h0
  have hlow := weight_ge (f := b.freqs.1) (k := 1)
    (w := fun n => l.len n + TreeKind.literal.desc.xbits n) fun n hn h => (hlp n hn h).trans
      (Nat.le_add_right _ _)
  have hlow' := @weight_ge TreeKind.literal.desc.elems 7 b.freqs.1
    (fun n => TreeKind.literal.desc.staticLen n + TreeKind.literal.desc.xbits n) fun n hn _ => by
      exact (staticLen_ge hn).trans (Nat.le_add_right _ _)
  have hup {kind : TreeKind} {t : BuiltTree} (hs : t.codeTree.Short kind.desc.elems) (f : Nat → Nat) :=
    weight_le (f := f) (k := 28) (w := fun n => t.len n + kind.desc.xbits n) fun n hn =>
      Nat.add_le_add (hs.le n hn) (kind.small.xbits n)
  have hup' (kind : TreeKind) (f : Nat → Nat) :=
    @weight_le kind.desc.elems 28 f (fun n => kind.desc.staticLen n + kind.desc.xbits n) fun n _ =>
        Nat.add_le_add (kind.small.staticLen n) (kind.small.xbits n)
  have hlup := hup hls b.freqs.1
  have hlup' := hup' .literal b.freqs.1
  have hdup := hup hds b.freqs.2
  have hdup' := hup' .distance b.freqs.2
  have hbup := hup hbs (scanTree d.lens (scanTree l.lens fun _ => 0))
  have hlst := hlst rfl
  have hdst := hdst rfl
  have hbst := hbst (by decide)
  have htl := buildTreeTrace_bounds .literal b.freqs.1 (dl .literal) 0 0 (hlt.trans (by decide))
    (m := 8) (k := 0) (by decide) (by decide) (Nat.sub_eq_zero_of_le htwo).le (by decide) c
  have htd := buildTreeTrace_bounds .distance b.freqs.2 (dl .distance) l.optLen l.staticLen
    (hdt.trans (by decide)) (m := 5) (k := 2) (by decide) (by decide) (Nat.sub_le 2 _) (Nat.le_refl 2) c
  have htb := buildTreeTrace_bounds .bitLength _ (dl .bitLength) d.optLen d.staticLen hblt
    (m := 0) (k := 2) (by decide) (by decide) (Nat.sub_le 2 _) (Nat.le_refl 2) c
  have hmax := maxBlindex_le bl.len 18
  unfold buildTreesTrace at hc
  rw [hl, Option.map_some, Option.getD_some, hd, Option.map_some, Option.getD_some] at hc
  unfold buildBlTree at hc
  dsimp only at hc
  rw [hbl] at hc
  rcases List.mem_append.mp hc with hc | hc
  · have := htl hc
    omega
  rcases List.mem_append.mp hc with hc | hc
  · have := htd hc
    omega
  rcases List.mem_append.mp hc with hc | hc
  · have := htb hc
    omega
  · obtain rfl := List.mem_singleton.mp hc
    dsimp only
    omega

theorem staticLcodes_short : staticLcodes.Short 286 :=
  ⟨fun n _ => TreeKind.literal.small.staticLen n⟩

theorem staticDcodes_short : staticDcodes.Short 30 :=
  ⟨fun n _ => TreeKind.distance.small.staticLen n⟩

theorem emitTree_emits (type : Nat) (last : Bool) : Emits (BitWriter.emitTree type last) 3 :=
  Emits.sendBits _ (by decide)

/-- The block in the form taken has the bits counted for it. -/
theorem emit_bits (a : FlushArgs) (b : SymBuf) (form : BlockForm) (trees : Option BlockTrees)
    {optLen staticLen : Int}
    (hstatic : form = .static → staticLen = (b.bits staticLcodes staticDcodes : Nat))
    (hdynamic : form = .dynamic → ∃ t, trees = some t ∧ t.Bits b ∧ optLen = t.optLen)
    {w : BitWriter} (hw : w.biValid < 64) :
    ∃ block, a.emit form b.syms trees w = some block ∧
      (form = .static → (block.total : Int) = w.total + (3 + staticLen)) ∧
      (form = .dynamic → (block.total : Int) = w.total + (3 + optLen)) := by
  cases form with
  | stored =>
    obtain ⟨w', h, -, -⟩ := emitTree_emits 0 a.last w hw
    have hstored : ∃ block, w.storedBlock (a.buf.getD []) a.storedLen a.last = some block := by
      unfold BitWriter.storedBlock
      rw [h]
      exact ⟨_, rfl⟩
    obtain ⟨block, hblock⟩ := hstored
    exact ⟨block, hblock, fun h => (by cases h), fun h => (by cases h)⟩
  | static =>
    obtain ⟨w', h, -, ht⟩ := (emitTree_emits 1 a.last).bind
      (compressBlock_emits staticLcodes_short staticDcodes_short b.syms) w hw
    refine ⟨w', h, fun _ => ?_, fun h => by cases h⟩
    rw [hstatic rfl, ht]
    unfold SymBuf.bits
    push_cast
    rfl
  | dynamic =>
    obtain ⟨t, rfl, hbits, rfl⟩ := hdynamic rfl
    obtain ⟨w', h, -, ht⟩ := ((emitTree_emits 2 a.last).bind
      (sendAllTrees_emits hbits.bl hbits.llens hbits.dlens)).bind
        (compressBlock_emits hbits.l hbits.d b.syms) w hw
    refine ⟨w', ?_, fun h => (by cases h), fun _ => ?_⟩
    · rw [← h]
      exact (Option.bind_assoc _ _ _).symm
    · rw [hbits.opt, ht]
      unfold SymBuf.bits BlockTrees.headerBits
      push_cast
      ring

/-- The block is as long as the counter of its form says, and the counters do not wrap. -/
theorem trFlushBlock_bits (a : FlushArgs) (b : SymBuf) (dl : TreeKind → Nat → Nat) (w : BitWriter)
    (hlevel : 0 < a.level) (hw : w.biValid < 64) :
    ∃ f, trFlushBlock a b dl w = some f ∧
      (f.form = .static → (f.block.total : Int) = w.total + (3 + f.staticLen)) ∧
      (f.form = .dynamic → (f.block.total : Int) = w.total + (3 + f.optLen)) ∧
      ∀ c ∈ flushTrace b dl, InWord c := by
  unfold trFlushBlock
  by_cases h0 : b.syms.length = 0
  · -- an empty block is static
    rw [if_pos h0]
    have hform : a.form 0 0 = .static := by
      unfold FlushArgs.form
      rw [if_neg (by omega), if_pos rfl]
    have hseven : b.bits staticLcodes staticDcodes = 7 := by
      unfold SymBuf.bits
      rw [List.length_eq_zero_iff.mp h0]
      rfl
    obtain ⟨block, h, hs, hd⟩ := @emit_bits a b (a.form 0 0) none 0 7
      (fun _ => by rw [hseven]; rfl) (fun h => by rw [hform] at h; cases h) w hw
    refine ⟨⟨a.form 0 0, 0, 7, block, if a.last then block.biWindup else block⟩, ?_, hs, hd,
      flushTrace_inWord b dl⟩
    simp only [Option.bind_eq_bind, Option.bind_some]
    rw [h]
    rfl
  · rw [if_neg h0, if_pos hlevel]
    obtain ⟨t, ht, hbits⟩ := buildTrees_bits dl b
    rw [ht]
    simp only [Option.bind_eq_bind, Option.bind_some]
    generalize a.form _ _ = form
    obtain ⟨block, h, hs, hd⟩ := emit_bits a b form (some t) (fun _ => hbits.static)
      (fun _ => ⟨t, rfl, hbits, rfl⟩) hw
    refine ⟨⟨form, t.optLen, t.staticLen, block, if a.last then block.biWindup else block⟩, ?_, hs,
      hd, flushTrace_inWord b dl⟩
    rw [h]
    rfl

theorem byteRuns_zero : 0 ≤ 32768 := by decide

theorem byteRuns_byte : 97 < 256 := by decide

theorem byteRuns_dist : 1 ≤ 32768 := by decide

theorem byteRuns_length : 255 < 256 := by decide

/-- A byte, and twenty long runs of it. -/
def byteRuns : List BufferedSym :=
  ⟨0, 97, byteRuns_zero, byteRuns_byte⟩ ::
    List.replicate 20 ⟨1, 255, byteRuns_dist, byteRuns_length⟩

theorem byteRuns_limit : 64 ≤ 2 ^ 15 := by decide

theorem byteRuns_room : byteRuns.length < 64 := by decide

def byteRunsBuf : SymBuf := ⟨64, byteRuns, byteRuns_limit, byteRuns_room⟩

/-- A block with trees of its own, which is shorter than with the static ones. -/
theorem trFlushBlock_bits_runs :
    ∃ f, trFlushBlock ⟨some (List.replicate 5161 97), 5161, true, 6, false⟩ byteRunsBuf (fun _ _ => 0)
        ⟨[], 0, 0, 0⟩ = some f ∧
      f.form = .dynamic ∧ f.optLen = 154 ∧ f.staticLen = 275 ∧ f.block.total = 157 ∧
      (f.block.total : Int) = BitWriter.total ⟨[], 0, 0, 0⟩ + (3 + f.optLen) ∧
      ∀ c ∈ flushTrace byteRunsBuf fun _ _ => 0, InWord c := by
  have hblock : (trFlushBlock ⟨some (List.replicate 5161 97), 5161, true, 6, false⟩ byteRunsBuf
      (fun _ _ => 0) ⟨[], 0, 0, 0⟩).map (fun f => (f.form, f.optLen, f.staticLen, f.block.total)) =
        some (.dynamic, 154, 275, 157) := by decide +kernel
  obtain ⟨f, hf, -, hdynamic, htrace⟩ := trFlushBlock_bits
    ⟨some (List.replicate 5161 97), 5161, true, 6, false⟩ byteRunsBuf (fun _ _ => 0) ⟨[], 0, 0, 0⟩
    (show 0 < 6 by decide) (show 0 < 64 by decide)
  rw [hf, Option.map_some] at hblock
  obtain ⟨hform, hlast⟩ := Prod.mk.inj (Option.some.inj hblock)
  obtain ⟨hopt, hlast⟩ := Prod.mk.inj hlast
  obtain ⟨hstatic, htotal⟩ := Prod.mk.inj hlast
  exact ⟨f, hf, hform, hopt, hstatic, htotal, hdynamic hform, htrace⟩

end ZlibNg
