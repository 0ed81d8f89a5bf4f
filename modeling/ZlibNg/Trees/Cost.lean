import ZlibNg.Trees.Huffman

/-! What `build_tree` adds to `opt_len` and `static_len`: the bits of the symbols counted, with
their final lengths. The codes that are forced were paid for in advance. -/
namespace ZlibNg
open Finset

/-- The extra bits of a symbol. -/
def StaticTreeDesc.xbits (desc : StaticTreeDesc) (n : Nat) : Nat :=
  if desc.extraBase ≤ n then desc.extraBits.getD (n - desc.extraBase) 0 else 0

/-- Frequencies with a sum that fits in a counter fit as well. -/
theorem freq_lt_of_sum {freq : Nat → Nat} {n : Nat} (h : ((List.range n).map freq).sum ≤ 65535) :
    ∀ i < n, freq i < 2 ^ 16 := by
  intro i hi
  have hle := List.single_le_sum (fun _ _ => Nat.zero_le _) _
    (List.mem_map_of_mem (f := freq) (List.mem_range.mpr hi))
  omega

/-- The merges leave the frequencies of the symbols. -/
theorem SortedLeaves.merged_freq {elems : Nat} {scan : TreeScan}
    (h : SortedLeaves elems scan.freq scan.sorted) (hlength : scan.sorted.length = scan.leaves.length)
    (hroom : 2 * elems ≤ 2 ^ 10) : ∀ x < elems, (MergeState.run (scan.leaves.length - 1)
      { leaves := scan.sorted, internals := [], node := elems, freq := scan.freq,
        dl := scan.dl }).freq x = scan.freq x := by
  have htwo := h.two
  have hcard := h.length_eq
  have hle := List.length_filter_le (fun n => decide (scan.freq n ≠ 0)) (List.range elems)
  rw [List.length_range] at hle
  obtain ⟨k, hk⟩ : ∃ k, scan.leaves.length - 1 = k + 1 := ⟨scan.leaves.length - 2, by omega⟩
  have hinv : MergeState.Inv ⟨scan.sorted, [], elems, scan.freq, scan.dl⟩ (k + 1) :=
    h.start_inv (by omega) (by omega)
  obtain ⟨-, -, hmerged, -⟩ := @MergeState.run_spec _ _ hinv (elems + k)
    (show elems + k + 1 = elems + (k + 1) by omega)
  rw [hk]
  exact hmerged

theorem sum_update_one {elems b : Nat} (hb : b < elems) {f : Nat → Nat} (h0 : f b = 0)
    (w : Nat → Int) :
    ∑ n ∈ range elems, (Function.update f b 1 n : Int) * w n =
      ∑ n ∈ range elems, (f n : Int) * w n + w b := by
  have hterm : ∀ n ∈ range elems, (Function.update f b 1 n : Int) * w n =
      (f n : Int) * w n + if n = b then w b else 0 := by
    intro n _
    by_cases hn : n = b
    · rw [hn, Function.update_self, h0, if_pos rfl]
      norm_num
    · rw [Function.update_of_ne hn, if_neg hn, add_zero]
  rw [sum_congr rfl hterm, sum_add_distrib, sum_ite_eq' (range elems) b fun _ => w b,
    if_pos (mem_range.mpr hb)]

/-- The codes that are forced, and what they are charged. -/
structure TreeScan.Charged (desc : StaticTreeDesc) (s s' : TreeScan) : Prop where
  low : ∀ n, s.freq n = 0 → s'.freq n ≠ 0 → n ≤ 2
  opt : s'.optLen + ∑ n ∈ range desc.elems, (s'.freq n : Int) * 1 =
    s.optLen + ∑ n ∈ range desc.elems, (s.freq n : Int) * 1
  static : s'.staticLen + ∑ n ∈ range desc.elems, (s'.freq n : Int) * desc.staticLen n =
    s.staticLen + ∑ n ∈ range desc.elems, (s.freq n : Int) * desc.staticLen n

section Force
variable {desc : StaticTreeDesc} {s : TreeScan}

theorem TreeScan.Charged.trans {s' s'' : TreeScan} (h : s.Charged desc s') (h' : s'.Charged desc s'') :
    s.Charged desc s'' := by
  refine ⟨fun n h0 hn => ?_, h'.opt.trans h.opt, h'.static.trans h.static⟩
  by_cases hn' : s'.freq n = 0
  · exact h'.low n hn' hn
  · exact h.low n h0 hn'

theorem TreeScan.forceOne_charged (hel : 3 ≤ desc.elems)
    (h0 : s.freq (if s.maxCode < 2 then (s.maxCode + 1).toNat else 0) = 0) :
    s.Charged desc (s.forceOne desc) := by
  unfold TreeScan.forceOne
  generalize hb : (if s.maxCode < 2 then (s.maxCode + 1).toNat else 0) = b at h0
  have hb2 : b ≤ 2 := by
    rw [← hb]
    split <;> omega
  refine ⟨fun n hn hn' => ?_, ?_, ?_⟩
  · dsimp only at hn'
    by_cases hnb : n = b
    · omega
    · rw [Function.update_of_ne hnb] at hn'
      exact absurd hn hn'
  · have hsum := sum_update_one (show b < desc.elems by omega) h0 fun _ => 1
    dsimp only
    omega
  · have hsum := sum_update_one (show b < desc.elems by omega) h0 fun n => desc.staticLen n
    dsimp only
    omega

theorem TreeScan.force_charged (hel : 3 ≤ desc.elems)
    (hz : s.leaves.length < 2 → ∀ n < desc.elems, (n : Int) ≠ s.maxCode → s.freq n = 0)
    (hnil : s.leaves.length = 0 → s.maxCode = -1) (hpos : -1 ≤ s.maxCode) :
    s.Charged desc (s.force desc) := by
  have hnode {t : TreeScan} (ht : -1 ≤ t.maxCode)
      (htz : ∀ n < desc.elems, (n : Int) ≠ t.maxCode → t.freq n = 0) :
      t.freq (if t.maxCode < 2 then (t.maxCode + 1).toNat else 0) = 0 := by
    apply htz
    · split <;> omega
    · split <;> omega
  have hlength (t : TreeScan) : (t.forceOne desc).leaves.length = t.leaves.length + 1 := by
    simp [TreeScan.forceOne]
  rcases Nat.lt_or_ge s.leaves.length 2 with hlt | hge
  · have hone := forceOne_charged hel (hnode hpos (hz hlt))
    rw [TreeScan.force, if_pos hlt]
    rcases Nat.eq_zero_or_pos s.leaves.length with h0 | h1
    · -- no code at all: zero and then one
      have hcode : (s.forceOne desc).maxCode = 0 := by
        simp [TreeScan.forceOne, hnil h0]
      have hfreq : (s.forceOne desc).freq = Function.update s.freq 0 1 := by
        simp [TreeScan.forceOne, hnil h0]
      have htwo := @forceOne_charged desc (s.forceOne desc) hel (hnode (by omega) fun n hn hne => by
        rw [hcode] at hne
        rw [hfreq, Function.update_of_ne (by omega)]
        exact hz hlt n hn (by rw [hnil h0]; omega))
      rw [TreeScan.force, if_pos (by rw [hlength]; omega),
        TreeScan.force_of_two (by rw [hlength, hlength]; omega)]
      exact hone.trans htwo
    · rw [TreeScan.force_of_two (by rw [hlength]; omega)]
      exact hone
  · rw [TreeScan.force_of_two hge]
    exact ⟨fun n h0 hn => absurd h0 hn, rfl, rfl⟩

/-- A tree with fewer than two codes has none but the largest one. -/
theorem only_leaf {freq : Nat → Nat} {elems m : Nat} (hm : m < elems) (hm0 : freq m ≠ 0)
    (hlt : (leavesOf freq elems).length < 2) {i : Nat} (hi : i < elems) (h0 : freq i ≠ 0) : i = m := by
  have hcard : ((range elems).filter fun n => freq n ≠ 0).card ≤ 1 := by
    rw [leavesOf, List.length_map] at hlt
    exact Nat.le_of_lt_succ hlt
  exact card_le_one.mp hcard i (mem_filter.mpr ⟨mem_range.mpr hi, h0⟩) m
    (mem_filter.mpr ⟨mem_range.mpr hm, hm0⟩)

theorem scan_foldl_lens (xs : List Nat) (s : TreeScan) :
    (xs.foldl TreeScan.step s).optLen = s.optLen ∧
      (xs.foldl TreeScan.step s).staticLen = s.staticLen := by
  induction xs generalizing s with
  | nil => exact ⟨rfl, rfl⟩
  | cons x xs ih =>
    obtain ⟨h1, h2⟩ := ih (s.step x)
    have hstep : (s.step x).optLen = s.optLen ∧ (s.step x).staticLen = s.staticLen := by
      unfold TreeScan.step
      dsimp only
      split <;> exact ⟨rfl, rfl⟩
    exact ⟨h1.trans hstep.1, h2.trans hstep.2⟩

/-- The scan of a tree, from the frequencies to the forced codes. -/
theorem scan_charged {freq dl : Nat → Nat} {optLen staticLen : Int} (hel : 3 ≤ desc.elems)
    (hel' : desc.elems ≤ 2 ^ 10) (hfreq : ∀ i < desc.elems, freq i < 2 ^ 16) :
    TreeScan.Charged desc
      { leaves := [], countLo := fun _ => 0, countHi := fun _ => 0, maxCode := -1, freq := freq,
        dl := dl, optLen := optLen, staticLen := staticLen }
      (((List.range desc.elems).foldl TreeScan.step
        { leaves := [], countLo := fun _ => 0, countHi := fun _ => 0, maxCode := -1, freq := freq,
          dl := dl, optLen := optLen, staticLen := staticLen }).force desc) := by
  obtain ⟨h1, h2, -, -, -, -, -, h8⟩ := scan_spec dl optLen staticLen hel' hfreq
  obtain ⟨hopt, hstatic⟩ := scan_foldl_lens (List.range desc.elems)
    { leaves := [], countLo := fun _ => 0, countHi := fun _ => 0, maxCode := -1, freq := freq,
      dl := dl, optLen := optLen, staticLen := staticLen }
  generalize (List.range desc.elems).foldl TreeScan.step _ = s at *
  dsimp only at hopt hstatic
  have hforce : s.Charged desc (s.force desc) := by
    refine TreeScan.force_charged hel (fun hlt n hn hne => ?_) (fun hlen => ?_) ?_
    · rcases h8 with ⟨-, hall⟩ | ⟨m, hm, hmn, hmf, -⟩
      · rw [h2]
        exact hall n hn
      · rw [h2]
        by_contra h0
        rw [h1] at hlt
        exact hne (by rw [hm, only_leaf hmn hmf hlt hn h0])
    · rcases h8 with ⟨hm, -⟩ | ⟨m, -, hmn, hmf, -⟩
      · exact hm
      · have hlist := leavesOf_list freq hel'
        have hmem := (hlist.mem m hmn).mp hmf
        rw [← h1, List.length_eq_zero_iff.mp hlen] at hmem
        exact absurd hmem List.not_mem_nil
    · rcases h8 with ⟨hm, -⟩ | ⟨m, hm, -⟩ <;> omega
  exact ⟨fun n h0 hn => hforce.low n (by rw [h2]; exact h0) hn,
    by rw [hforce.opt, hopt, h2], by rw [hforce.static, hstatic, h2]⟩

end Force

section Leaves
variable {desc : StaticTreeDesc} {f : Nat → Nat}

theorem leaf_dl (xs : List Nat) (s : BitlenState) {x : Nat} (hx : x ∉ xs.map pqNode) :
    (xs.foldl (BitlenState.leaf desc f) s).dl x = s.dl x := by
  induction xs generalizing s with
  | nil => rfl
  | cons e xs ih =>
    rw [List.map_cons, List.mem_cons, not_or] at hx
    rw [List.foldl_cons, ih _ hx.2]
    simp only [BitlenState.leaf, bitlenStep_eq]
    exact Function.update_of_ne hx.1 _ _

/-- The bits of the leaves, with the lengths they get. -/
theorem leaf_cost (xs : List Nat) (s : BitlenState) (hnodup : (xs.map pqNode).Nodup) :
    (xs.foldl (BitlenState.leaf desc f) s).optLen = s.optLen + ((xs.map pqNode).map fun n =>
        (f n : Int) * (((xs.foldl (BitlenState.leaf desc f) s).dl n : Int) + desc.xbits n)).sum ∧
      (desc.staticTree.isSome → (xs.foldl (BitlenState.leaf desc f) s).staticLen = s.staticLen +
        ((xs.map pqNode).map fun n => (f n : Int) * ((desc.staticLen n : Int) + desc.xbits n)).sum) ∧
      (¬ desc.staticTree.isSome → (xs.foldl (BitlenState.leaf desc f) s).staticLen = s.staticLen) := by
  induction xs generalizing s with
  | nil => simp
  | cons e xs ih =>
    rw [List.map_cons, List.nodup_cons] at hnodup
    obtain ⟨h1, h2, h3⟩ := ih (s.leaf desc f e) hnodup.2
    have hlen := @leaf_dl desc f xs (s.leaf desc f e) _ hnodup.1
    rw [List.foldl_cons, List.map_cons, List.map_cons, List.sum_cons, List.map_cons, List.sum_cons]
    refine ⟨?_, fun hs => ?_, fun hs => ?_⟩
    · rw [h1, hlen]
      simp only [BitlenState.leaf, StaticTreeDesc.xbits]
      ring
    · rw [h2 hs]
      simp only [BitlenState.leaf, StaticTreeDesc.xbits, if_pos hs]
      ring
    · rw [h3 hs]
      simp only [BitlenState.leaf, if_neg hs]

/-- New lengths change the bits by what they change the sum. -/
theorem recomputeStep_cost {bits : Nat} {F : Finset Nat} (s : (Nat → Nat) × Int) {e : Nat}
    (he : pqNode e ∈ F) :
    (recomputeStep f bits s e).2 - ∑ x ∈ F, (f x : Int) * (recomputeStep f bits s e).1 x =
      s.2 - ∑ x ∈ F, (f x : Int) * s.1 x := by
  unfold recomputeStep
  dsimp only
  split
  · dsimp only
    have hterm : ∀ x ∈ F, (f x : Int) * (Function.update s.1 (pqNode e) bits x : Nat) =
        (f x : Int) * s.1 x +
          if x = pqNode e then (f (pqNode e) : Int) * ((bits : Int) - s.1 (pqNode e)) else 0 := by
      intro x _
      by_cases hx : x = pqNode e
      · rw [hx, Function.update_self, if_pos rfl]
        ring
      · rw [Function.update_of_ne hx, if_neg hx, add_zero]
    rw [sum_congr rfl hterm, sum_add_distrib, sum_ite_eq' F (pqNode e)
      fun _ => (f (pqNode e) : Int) * ((bits : Int) - s.1 (pqNode e)), if_pos he]
    push_cast
    ring
  · rfl

theorem recompute_cost {c : Nat → Nat} {F : Finset Nat} (b : Nat) (sorted : List Nat)
    (s : (Nat → Nat) × Int) (hF : ∀ e ∈ sorted, pqNode e ∈ F) :
    (recompute f c b sorted s).2 - ∑ x ∈ F, (f x : Int) * (recompute f c b sorted s).1 x =
      s.2 - ∑ x ∈ F, (f x : Int) * s.1 x := by
  induction b generalizing sorted s with
  | zero => rfl
  | succ b ih =>
    rw [recompute, ih _ _ fun e he => hF e (List.mem_of_mem_drop he)]
    have hfold : ∀ (xs : List Nat) (s : (Nat → Nat) × Int), (∀ e ∈ xs, pqNode e ∈ F) →
        (xs.foldl (recomputeStep f (b + 1)) s).2 -
          ∑ x ∈ F, (f x : Int) * (xs.foldl (recomputeStep f (b + 1)) s).1 x =
        s.2 - ∑ x ∈ F, (f x : Int) * s.1 x := by
      intro xs
      induction xs with
      | nil => exact fun _ _ => rfl
      | cons e xs ih' =>
        intro s hxs
        rw [List.foldl_cons, ih' _ fun e' he' => hxs e' (List.mem_cons_of_mem _ he'),
          recomputeStep_cost s (hxs e List.mem_cons_self)]
    exact hfold _ s fun e he => hF e (List.mem_of_mem_take he)

end Leaves

/-- Charges that are made for a weight are made for a larger one, if they differ only at symbols
with the same frequency. -/
theorem charge_add {E : Finset Nat} {f f' : Nat → Nat} {c c' : Int} {w d : Nat → Int}
    (h : c' + ∑ n ∈ E, (f' n : Int) * w n = c + ∑ n ∈ E, (f n : Int) * w n)
    (hd : ∀ n ∈ E, f' n ≠ f n → d n = 0) :
    c' + ∑ n ∈ E, (f' n : Int) * (w n + d n) = c + ∑ n ∈ E, (f n : Int) * (w n + d n) := by
  have hsame : ∑ n ∈ E, (f' n : Int) * d n = ∑ n ∈ E, (f n : Int) * d n := by
    refine sum_congr rfl fun n hn => ?_
    by_cases heq : f' n = f n
    · rw [heq]
    · rw [hd n hn heq, mul_zero, mul_zero]
  simp only [mul_add, sum_add_distrib]
  linarith

/-- Two codes that are complete have one bit each. -/
theorem len_eq_one {T : Finset Nat} {len : Nat → Nat} {m : Nat} (hcard : T.card = 2) (hm : 2 ≤ m)
    (hlen : ∀ n ∈ T, 1 ≤ len n) (hsum : ∑ n ∈ T, 2 ^ (m - len n) = 2 ^ m) {n : Nat} (hn : n ∈ T) :
    len n = 1 := by
  obtain ⟨a, b, hab, rfl⟩ := card_eq_two.mp hcard
  obtain ⟨k, rfl⟩ := Nat.exists_eq_add_of_le' (show 1 ≤ m by omega)
  have hpow : 2 ^ (k + 1) = 2 ^ k + 2 ^ k := by ring
  have hle : ∀ x, 1 ≤ len x → 2 ^ (k + 1 - len x) ≤ 2 ^ k := fun x hx =>
    Nat.pow_le_pow_right (by omega) (by omega)
  rw [sum_pair hab, hpow] at hsum
  have ha := hle a (hlen a (mem_insert_self a _))
  have hb := hle b (hlen b (mem_insert_of_mem (mem_singleton_self b)))
  have heq : ∀ x, 1 ≤ len x → 2 ^ (k + 1 - len x) = 2 ^ k → len x = 1 := by
    intro x hx hpx
    have hexp : k + 1 - len x = k := Nat.pow_right_injective (le_refl 2) hpx
    omega
  rcases mem_insert.mp hn with rfl | hn
  · exact heq _ (hlen _ (mem_insert_self _ _)) (by omega)
  · obtain rfl := mem_singleton.mp hn
    exact heq _ (hlen _ (mem_insert_of_mem (mem_singleton_self _))) (by omega)

theorem TreeKind.xbits_low (kind : TreeKind) {n : Nat} (hn : n ≤ 2) : kind.desc.xbits n = 0 := by
  have hall : ∀ n < 3, kind.desc.xbits n = 0 := by
    cases kind <;> decide
  exact hall n (by omega)

/-- The symbols with a frequency are those of the leaves. -/
theorem SortedLeaves.sum_eq {elems : Nat} {f : Nat → Nat} {sorted : List Nat}
    (h : SortedLeaves elems f sorted) {f' : Nat → Nat} (hf : ∀ n < elems, f' n = f n) (g : Nat → Int) :
    ((sorted.map pqNode).map fun n => (f' n : Int) * g n).sum =
      ∑ n ∈ range elems, (f n : Int) * g n := by
  rw [← List.sum_toFinset _ h.nodup]
  have hlt : ∀ n ∈ (sorted.map pqNode).toFinset, n < elems := by
    intro n hn
    obtain ⟨e, he, rfl⟩ := List.mem_map.mp (List.mem_toFinset.mp hn)
    exact h.node_lt e he
  rw [sum_congr rfl fun n hn => by rw [hf n (hlt n hn)]]
  refine sum_subset (fun n hn => mem_range.mpr (hlt n hn)) fun n hn hno => ?_
  have h0 : f n = 0 := by
    by_contra h0
    exact hno (List.mem_toFinset.mpr ((h.mem n (mem_range.mp hn)).mp h0))
  rw [h0]
  norm_num

/-- `build_tree` adds to `opt_len` the bits of the symbols counted in `freq`, with the lengths of
the tree, and to `static_len` their bits in the static tree. -/
theorem buildTree_cost (kind : TreeKind) (freq dl : Nat → Nat) (optLen staticLen : Int)
    (htotal : ((List.range kind.desc.elems).map freq).sum ≤ 65535) {t : BuiltTree}
    (ht : buildTree kind.desc freq dl optLen staticLen = some t) :
    t.optLen = optLen +
        ∑ n ∈ range kind.desc.elems, (freq n : Int) * ((t.len n : Int) + kind.desc.xbits n) ∧
      (kind.desc.staticTree.isSome → t.staticLen = staticLen +
        ∑ n ∈ range kind.desc.elems,
          (freq n : Int) * ((kind.desc.staticLen n : Int) + kind.desc.xbits n)) ∧
      (¬ kind.desc.staticTree.isSome → t.staticLen = staticLen) := by
  obtain ⟨hel, hroom, hcodes, hmax⟩ := kind.bounds
  have hroom' : kind.desc.elems ≤ 2 ^ 10 := by omega
  have hfreq := freq_lt_of_sum htotal
  obtain ⟨t', ht', hh⟩ := buildTree_huffman kind freq dl optLen staticLen htotal
  obtain rfl : t' = t := Option.some.inj (ht'.symm.trans ht)
  obtain ⟨hsorted, hlength, hforced, hzero⟩ := @scan_sorted kind.desc freq dl optLen staticLen hel hroom'
    (by omega)
  have hcharged := @scan_charged kind.desc freq dl optLen staticLen hel hroom' hfreq
  unfold buildTree at ht
  dsimp only at ht hsorted hlength hforced hzero
  generalize ((List.range kind.desc.elems).foldl TreeScan.step _).force kind.desc = scan at *
  have hmerged := hsorted.merged_freq hlength hroom
  generalize MergeState.run (scan.leaves.length - 1) _ = r at *
  obtain ⟨s, hs, rfl⟩ := Option.map_eq_some_iff.mp ht
  -- the bits of all leaves, the forced ones included
  have hsum (g : Nat → Int) := hsorted.sum_eq hmerged g
  have hbits : s.optLen = scan.optLen + ∑ n ∈ range kind.desc.elems,
        (scan.freq n : Int) * ((s.dl n : Int) + kind.desc.xbits n) ∧
      (kind.desc.staticTree.isSome → s.staticLen = scan.staticLen + ∑ n ∈ range kind.desc.elems,
        (scan.freq n : Int) * ((kind.desc.staticLen n : Int) + kind.desc.xbits n)) ∧
      (¬ kind.desc.staticTree.isSome → s.staticLen = scan.staticLen) := by
    unfold genBitlen at hs
    dsimp only at hs
    generalize hdl : bitlenNodes kind.desc.elems kind.desc.maxLength _ _ = d at hs
    obtain ⟨h1, h2, h3⟩ := @leaf_cost kind.desc r.freq scan.sorted
      { dl := d.1, overflow := d.2, blCount := fun _ => 0, optLen := scan.optLen,
        staticLen := scan.staticLen } hsorted.nodup
    generalize List.foldl (BitlenState.leaf kind.desc r.freq) _ scan.sorted = s₁ at *
    rw [hsum] at h1
    dsimp only at h1 h2 h3
    split at hs
    · obtain rfl := Option.some.inj hs
      exact ⟨h1, fun h => by rw [h2 h, hsum], h3⟩
    · obtain ⟨c, -, rfl⟩ := Option.map_eq_some_iff.mp hs
      dsimp only
      refine ⟨?_, fun h => by rw [h2 h, hsum], h3⟩
      have hre := @recompute_cost r.freq c (scan.sorted.map pqNode).toFinset kind.desc.maxLength
        scan.sorted (s₁.dl, s₁.optLen)
        (fun e he => List.mem_toFinset.mpr (List.mem_map_of_mem he))
      dsimp only at hre
      generalize recompute r.freq c kind.desc.maxLength scan.sorted (s₁.dl, s₁.optLen) = r' at hre ⊢
      rw [List.sum_toFinset _ hsorted.nodup, List.sum_toFinset _ hsorted.nodup, hsum, hsum] at hre
      simp only [mul_add, sum_add_distrib] at h1 ⊢
      linarith
  -- a forced code has one bit and no extra bits
  have hone : ∀ n ∈ range kind.desc.elems, scan.freq n ≠ freq n →
      s.dl n = 1 ∧ kind.desc.xbits n = 0 := by
    intro n hn hne
    have hlt := mem_range.mp hn
    have h0 : freq n = 0 := by
      by_contra h0
      exact hne (hforced.kept n h0)
    have hused : scan.freq n ≠ 0 := fun h => hne (h.trans h0.symm)
    refine ⟨?_, kind.xbits_low (hcharged.low n h0 hused)⟩
    have hfew : ((range kind.desc.elems).filter fun n => freq n ≠ 0).card < 2 := by
      by_contra hge
      exact hne (congrFun (hforced.enough (Nat.le_of_not_lt hge)) n)
    have hlong : 2 ≤ kind.desc.maxLength := by cases kind <;> decide
    have htree : r.freq n ≠ 0 := by
      rw [hmerged n hlt]
      exact hused
    refine len_eq_one (hh.used_card.trans (by omega)) hlong (fun x hx => ?_) hh.complete
      (mem_filter.mpr ⟨hn, htree⟩)
    obtain ⟨hx, hx0⟩ := mem_filter.mp hx
    exact Nat.one_le_iff_ne_zero.mpr ((hh.len_ne_zero x (mem_range.mp hx)).mpr hx0)
  refine ⟨?_, fun hstatic => ?_, fun hstatic => ?_⟩
  · rw [hbits.1]
    have hadd := charge_add (d := fun n => (s.dl n : Int) + kind.desc.xbits n - 1) hcharged.opt
      fun n hn hne => by
        obtain ⟨h1, h2⟩ := hone n hn hne
        rw [h1, h2]
        norm_num
    simp only [add_sub_cancel] at hadd
    exact hadd
  · rw [hbits.2.1 hstatic]
    exact charge_add hcharged.static fun n hn hne => by rw [(hone n hn hne).2]; rfl
  · rw [hbits.2.2 hstatic]
    have hnone : kind.desc.staticTree = none := Option.not_isSome_iff_eq_none.mp hstatic
    have hst := hcharged.static
    simpa [StaticTreeDesc.staticLen, hnone] using hst

theorem TreeScan.force_maxCode_lt {desc : StaticTreeDesc} (hel : 3 ≤ desc.elems) (s : TreeScan)
    (h : s.maxCode < desc.elems) : (s.force desc).maxCode < desc.elems := by
  induction s using TreeScan.force.induct desc with
  | case1 s hlt ih =>
    rw [TreeScan.force, if_pos hlt]
    refine ih ?_
    unfold TreeScan.forceOne
    dsimp only
    split <;> omega
  | case2 s hge =>
    rw [TreeScan.force, if_neg hge]
    exact h

/-- The largest code is one of the tree. -/
theorem buildTree_maxCode (kind : TreeKind) {freq dl : Nat → Nat} {optLen staticLen : Int}
    (hfreq : ∀ i < kind.desc.elems, freq i < 2 ^ 16) {t : BuiltTree}
    (ht : buildTree kind.desc freq dl optLen staticLen = some t) : t.maxCode < kind.desc.elems := by
  obtain ⟨hel, hroom, -, -⟩ := kind.bounds
  obtain ⟨-, -, -, -, -, -, -, h8⟩ := scan_spec dl optLen staticLen (show kind.desc.elems ≤ 2 ^ 10 by omega)
    hfreq
  obtain ⟨s, -, rfl⟩ := Option.map_eq_some_iff.mp ht
  refine TreeScan.force_maxCode_lt hel _ ?_
  rcases h8 with ⟨hm, -⟩ | ⟨m, hm, hlt, -⟩
  · rw [hm]
    omega
  · rw [hm]
    exact_mod_cast hlt

end ZlibNg
