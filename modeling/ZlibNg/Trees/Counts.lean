import ZlibNg.Trees.BlockSpec

/-! The counts of the lengths that `build_tree` leaves, and its largest code: the lengths and
codes of a tree are those that the decoder builds its table from. -/
namespace ZlibNg

open Finset

section Repair
variable {m : Nat} {c c' : Nat → Nat}

theorem nextShorter_le {b bits : Nat} (h : nextShorter c b = some bits) : bits ≤ b ∧ c bits ≠ 0 := by
  induction b with
  | zero =>
    rw [nextShorter] at h
    split at h
    · cases h
    · next h0 =>
      obtain rfl := Option.some.inj h
      exact ⟨Nat.le_refl 0, h0⟩
  | succ b ih =>
    rw [nextShorter] at h
    split at h
    · exact ⟨(ih h).1.trans (Nat.le_succ b), (ih h).2⟩
    · next h0 =>
      obtain rfl := Option.some.inj h
      exact ⟨Nat.le_refl _, h0⟩

/-- What a repair does not change. -/
structure Repaired (m : Nat) (c c' : Nat → Nat) : Prop where
  zero : c' 0 = 0
  codes : countCodes m c' = countCodes m c
  above : ∀ l, m < l → c' l = c l

theorem repairStep_repaired (hm : 1 ≤ m) (h0 : c 0 = 0) (h : repairStep m c = some c') :
    Repaired m c c' := by
  unfold repairStep at h
  obtain ⟨bits, hbits, h⟩ := Option.bind_eq_some_iff.mp h
  obtain ⟨c₁, h₁, h⟩ := Option.bind_eq_some_iff.mp h
  obtain ⟨hle, hne⟩ := nextShorter_le hbits
  have hpos : bits ≠ 0 := by
    rintro rfl
    exact hne h0
  rw [decrement, if_neg hne] at h₁
  obtain rfl := Option.some.inj h₁
  rw [decrement] at h
  split at h
  · cases h
  next hm0 =>
  obtain rfl := Option.some.inj h
  obtain ⟨v, hv⟩ := Nat.exists_eq_succ_of_ne_zero hne
  set c₁ := Function.update c bits (c bits - 1) with hc₁
  set c₂ := Function.update c₁ (bits + 1) (c₁ (bits + 1) + 2) with hc₂
  refine ⟨?_, ?_, fun l hl => ?_⟩
  · rw [Function.update_of_ne (by omega), hc₂, Function.update_of_ne (by omega), hc₁,
      Function.update_of_ne (by omega)]
    exact h0
  · have k1 := countCodes_update (c := c) (show bits ≤ m by omega) (c bits - 1)
    have k2 := countCodes_update (c := c₁) (show bits + 1 ≤ m by omega) (c₁ (bits + 1) + 2)
    have k3 := countCodes_update (c := c₂) (le_refl m) (c₂ m - 1)
    rw [← hc₁] at k1
    rw [← hc₂] at k2
    omega
  · rw [Function.update_of_ne (by omega), hc₂, Function.update_of_ne (by omega), hc₁,
      Function.update_of_ne (by omega)]

theorem repairLoop_repaired (hm : 1 ≤ m) {overflow : Nat} (h0 : c 0 = 0)
    (h : repairLoop m overflow c = some c') : Repaired m c c' := by
  induction overflow using Nat.strong_induction_on generalizing c with
  | _ overflow ih =>
    rw [repairLoop] at h
    obtain ⟨c₁, h₁, h⟩ := Option.bind_eq_some_iff.mp h
    have hstep := repairStep_repaired hm h0 h₁
    split at h
    · have hloop := ih (overflow - 2) (by omega) hstep.zero h
      exact ⟨hloop.zero, hloop.codes.trans hstep.codes,
        fun l hl => (hloop.above l hl).trans (hstep.above l hl)⟩
    · obtain rfl := Option.some.inj h
      exact hstep

/-- As many leaves get a length as are counted. -/
theorem recompute_count {freq : Nat → Nat} (b : Nat) (sorted : List Nat) (s : (Nat → Nat) × Int)
    (h0 : c 0 = 0) (hnodup : (sorted.map pqNode).Nodup)
    (hlen : sorted.length = ∑ l ∈ range (b + 1), c l) {l : Nat} (h1 : 1 ≤ l) (hl : l ≤ b) :
    (sorted.map pqNode).countP (fun x => (recompute freq c b sorted s).1 x = l) = c l := by
  induction b generalizing sorted s with
  | zero => omega
  | succ b ih =>
    rw [sum_range_succ] at hlen
    have hsplit := List.take_append_drop (c (b + 1)) sorted
    have hmap : sorted.map pqNode = (sorted.take (c (b + 1))).map pqNode ++
        (sorted.drop (c (b + 1))).map pqNode := by
      rw [← List.map_append, hsplit]
    have hnodup' := hnodup
    rw [hmap, List.nodup_append] at hnodup'
    obtain ⟨-, hnd, hdisj⟩ := hnodup'
    have hdrop : (sorted.drop (c (b + 1))).length = ∑ l ∈ range (b + 1), c l := by
      rw [List.length_drop]
      omega
    obtain ⟨g1, g2, -⟩ := @recompute_spec c freq 0 b (sorted.drop (c (b + 1)))
      ((sorted.take (c (b + 1))).foldl (recomputeStep freq (b + 1)) s) h0 hnd hdrop
    have ih' := ih (sorted.drop (c (b + 1)))
      ((sorted.take (c (b + 1))).foldl (recomputeStep freq (b + 1)) s) hnd hdrop
    rw [recompute, hmap, List.countP_append]
    generalize (recompute freq c b (sorted.drop (c (b + 1)))
      ((sorted.take (c (b + 1))).foldl (recomputeStep freq (b + 1)) s)).1 = r at *
    have htake : ∀ x ∈ (sorted.take (c (b + 1))).map pqNode, r x = b + 1 := by
      intro x hx
      rw [g1 x fun hx' => hdisj x hx x hx' rfl, recompute_foldl, if_pos hx]
    by_cases hlast : l = b + 1
    · have hall : ((sorted.take (c (b + 1))).map pqNode).countP (fun x => r x = l) = c l := by
        rw [List.countP_eq_length.mpr fun x hx => decide_eq_true ((htake x hx).trans hlast.symm),
          List.length_map, List.length_take, hlast]
        omega
      have hnone : ((sorted.drop (c (b + 1))).map pqNode).countP (fun x => r x = l) = 0 := by
        refine List.countP_eq_zero.mpr fun x hx hd => ?_
        have := g2 x hx
        have := of_decide_eq_true hd
        omega
      rw [hall, hnone, Nat.add_zero]
    · have hnone : ((sorted.take (c (b + 1))).map pqNode).countP (fun x => r x = l) = 0 := by
        refine List.countP_eq_zero.mpr fun x hx hd => ?_
        have := htake x hx
        have := of_decide_eq_true hd
        omega
      rw [hnone, Nat.zero_add]
      exact ih' (by omega)

end Repair

theorem TreeScan.force_used {desc : StaticTreeDesc} (s : TreeScan) (hpos : -1 ≤ s.maxCode)
    (h : ∀ n, n < desc.elems → s.freq n ≠ 0 → (n : Int) ≤ s.maxCode) :
    ∀ n, n < desc.elems → (s.force desc).freq n ≠ 0 → (n : Int) ≤ (s.force desc).maxCode := by
  induction s using TreeScan.force.induct desc with
  | case1 s hlt ih =>
    rw [TreeScan.force, if_pos hlt]
    refine ih ?_ fun n hn h0 => ?_
    · unfold TreeScan.forceOne
      dsimp only
      split <;> omega
    unfold TreeScan.forceOne at h0 ⊢
    dsimp only at h0 ⊢
    by_cases hmax : s.maxCode < 2
    · rw [if_pos hmax] at h0 ⊢
      by_cases hnode : n = (s.maxCode + 1).toNat
      · omega
      · rw [Function.update_of_ne hnode] at h0
        have := h n hn h0
        omega
    · rw [if_neg hmax] at h0 ⊢
      by_cases hnode : n = 0
      · omega
      · rw [Function.update_of_ne hnode] at h0
        exact h n hn h0
  | case2 s hge =>
    rw [TreeScan.force, if_neg hge]
    exact h

theorem scan_used {desc : StaticTreeDesc} {freq dl : Nat → Nat} {optLen staticLen : Int}
    (hel' : desc.elems ≤ 2 ^ 10) (hfreq : ∀ i < desc.elems, freq i < 2 ^ 16) :
    let scan := ((List.range desc.elems).foldl TreeScan.step
      { leaves := [], countLo := fun _ => 0, countHi := fun _ => 0, maxCode := -1, freq := freq,
        dl := dl, optLen := optLen, staticLen := staticLen }).force desc
    ∀ n, n < desc.elems → scan.freq n ≠ 0 → (n : Int) ≤ scan.maxCode := by
  obtain ⟨-, h2, -, -, -, -, -, h8⟩ := scan_spec dl optLen staticLen hel' hfreq
  dsimp only
  generalize (List.range desc.elems).foldl TreeScan.step _ = s at *
  refine TreeScan.force_used s ?_ fun n hn h0 => ?_
  · rcases h8 with ⟨hm, -⟩ | ⟨m, hm, -⟩ <;> omega
  · rw [h2] at h0
    rcases h8 with ⟨-, hall⟩ | ⟨m, hm, -, -, hbig⟩
    · exact absurd (hall n hn) h0
    · by_contra hlt
      exact h0 (hbig n hn (by omega))

section Leaves
variable {elems m : Nat} {freq f len c c' : Nat → Nat} {sorted : List Nat}

/-- The leaves with a length are the symbols with it. -/
theorem LeafList.filter_len (h : LeafList elems f sorted)
    (hlen : ∀ x < elems, x ∉ sorted.map pqNode → len x = 0) {l : Nat} (h1 : 1 ≤ l) :
    ((sorted.map pqNode).toFinset.filter fun x => len x = l) =
      (range elems).filter fun x => len x = l := by
  ext x
  rw [mem_filter, mem_filter, mem_range]
  constructor
  · exact fun hx => ⟨h.lt_elems hx.1, hx.2⟩
  · rintro ⟨hx, hxl⟩
    refine ⟨?_, hxl⟩
    by_contra hmem
    have := hlen x hx fun hx' => hmem (List.mem_toFinset.mpr hx')
    omega

/-- The repaired counts are those of the lengths given out again. -/
theorem Repaired.recompute_card (hrep : Repaired m c c') (h : LeafList elems f sorted)
    (s : (Nat → Nat) × Int) (hlens : ∀ x ∈ (sorted.map pqNode).toFinset, 1 ≤ s.1 x ∧ s.1 x ≤ m)
    (hother : ∀ x < elems, x ∉ sorted.map pqNode → s.1 x = 0)
    (hc : ∀ l, c l = ((sorted.map pqNode).toFinset.filter fun x => s.1 x = l).card) {l : Nat}
    (h1 : 1 ≤ l) :
    c' l = ((range elems).filter fun n => (recompute freq c' m sorted s).1 n = l).card := by
  have hsum : sorted.length = ∑ l ∈ range (m + 1), c' l := by
    obtain ⟨-, hcount⟩ := countKraft_card (fun x hx => (hlens x hx).2) hc
    have hcodes := hrep.codes
    rw [hcount, List.toFinset_card_of_nodup h.nodup, List.length_map] at hcodes
    exact hcodes.symm
  obtain ⟨g1, g2, -⟩ := @recompute_spec c' freq 0 m sorted s hrep.zero h.nodup hsum
  have hcnt := @recompute_count c' freq m sorted s hrep.zero h.nodup hsum l h1
  generalize (recompute freq c' m sorted s).1 = len at *
  rw [← h.filter_len (fun x hx hmem => (g1 x hmem).trans (hother x hx hmem)) h1]
  by_cases hl : l ≤ m
  · rw [← hcnt hl, List.countP_eq_length_filter,
      ← List.toFinset_card_of_nodup (h.nodup.filter _), List.toFinset_filter]
    simp
  · -- no length is above the longest, before the repair or after it
    have hnone : ∀ g : Nat → Nat, (∀ x ∈ (sorted.map pqNode).toFinset, g x ≤ m) →
        ((sorted.map pqNode).toFinset.filter fun x => g x = l).card = 0 := by
      intro g hg
      rw [card_eq_zero, filter_eq_empty_iff]
      intro x hx h0
      have := hg x hx
      omega
    rw [hrep.above l (by omega), hc, hnone s.1 fun x hx => (hlens x hx).2,
      hnone len fun x hx => (g2 x (List.mem_toFinset.mp hx)).2]

end Leaves

/-- The counts of the lengths, and the largest code. -/
structure BuiltTree.Counted (desc : StaticTreeDesc) (t : BuiltTree) : Prop where
  used : ∀ n, n < desc.elems → t.freq n ≠ 0 → (n : Int) ≤ t.maxCode
  zero : t.blCount 0 = 0
  count : ∀ l, 1 ≤ l → t.blCount l = ((range desc.elems).filter fun n => t.len n = l).card

theorem buildTree_counted (kind : TreeKind) {freq dl : Nat → Nat} {optLen staticLen : Int}
    (htotal : ((List.range kind.desc.elems).map freq).sum ≤ 65535) {t : BuiltTree}
    (ht : buildTree kind.desc freq dl optLen staticLen = some t) : t.Counted kind.desc := by
  obtain ⟨hel, hroom, hcodes, hmax⟩ := kind.bounds
  have hroom' : kind.desc.elems ≤ 2 ^ 10 := by omega
  have hfreq := freq_lt_of_sum htotal
  generalize kind.desc = desc at *
  obtain ⟨hsorted, hlength, -, hzero⟩ := @scan_sorted desc freq dl optLen staticLen hel hroom' (by omega)
  have hused := @scan_used desc freq dl optLen staticLen hroom' hfreq
  unfold buildTree at ht
  dsimp only at ht hused hsorted hlength hzero
  generalize ((List.range desc.elems).foldl TreeScan.step _).force desc = scan at *
  have htwo := hsorted.two
  have hcard := hsorted.length_eq
  have hle := List.length_filter_le (fun n => decide (scan.freq n ≠ 0)) (List.range desc.elems)
  rw [List.length_range] at hle
  obtain ⟨k, hk⟩ : ∃ k, scan.leaves.length - 1 = k + 1 := ⟨scan.leaves.length - 2, by omega⟩
  set s₀ : MergeState := ⟨scan.sorted, [], desc.elems, scan.freq, scan.dl⟩ with hs₀
  have hitems : s₀.items = scan.sorted := List.append_nil _
  have hinv : s₀.Inv (k + 1) := hsorted.start_inv (by omega) (by omega)
  rw [hk] at ht
  obtain ⟨h1, h2, h3, h4, -⟩ := @MergeState.run_spec _ _ hinv (desc.elems + k)
    (show desc.elems + k + 1 = desc.elems + (k + 1) by omega)
  have hnodes : s₀.nodes = (scan.sorted.map pqNode).toFinset := by rw [MergeState.nodes, hitems]
  rw [hnodes] at h2 h4
  change (∀ x < desc.elems, _) at h3
  change ∀ x, _ → x < desc.elems → _ at h2
  change ∀ x ∈ (_ ∪ Ico desc.elems _).erase _, _ ∧ desc.elems ≤ _ ∧ _ at h4
  generalize MergeState.run (k + 1) s₀ = r at *
  rw [h1, Nat.add_sub_cancel] at ht
  have htree := bitlen_lens hsorted.toLeafList (Nat.le_add_right _ k) h4 r.freq scan.optLen
    scan.staticLen
  unfold genBitlen at ht
  dsimp only at htree ht
  generalize List.foldl (BitlenState.leaf desc r.freq) _ scan.sorted = s at *
  have hlens := htree.leaves hsorted.toLeafList (Nat.le_add_right _ k) hmax
  have hother := htree.others_zero hsorted.toLeafList h2 hzero
  have hs0 : s.blCount 0 = 0 := by
    rw [htree.count, card_eq_zero, filter_eq_empty_iff]
    intro x hx h0
    have := (hlens x hx).1
    omega
  obtain ⟨s', hs', rfl⟩ := Option.map_eq_some_iff.mp ht
  have husedt : ∀ n, n < desc.elems → r.freq n ≠ 0 → (n : Int) ≤ scan.maxCode := by
    intro n hn h0
    rw [h3 n hn] at h0
    exact hused n hn h0
  split at hs'
  · obtain rfl := Option.some.inj hs'
    exact ⟨husedt, hs0, fun l h1 =>
      (htree.count l).trans (congrArg card (hsorted.filter_len hother h1))⟩
  · obtain ⟨c', hloop, rfl⟩ := Option.map_eq_some_iff.mp hs'
    have hrep := repairLoop_repaired hmax hs0 hloop
    exact ⟨husedt, hrep.zero, fun l h1 =>
      hrep.recompute_card hsorted.toLeafList (s.dl, s.optLen) hlens hother htree.count h1⟩

section Lens
variable {len : Nat → Nat} {j k : Nat}

theorem getD_map_range {n : Nat} (h : n < k) : ((List.range k).map len).getD n 0 = len n := by
  rw [List.getD_eq_getElem _ _ (by rwa [List.length_map, List.length_range]), List.getElem_map,
    List.getElem_range]

theorem kraft_map_range (len : Nat → Nat) (k : Nat) : kraft ((List.range k).map len) =
    ∑ n ∈ (range k).filter fun n => len n ≠ 0, 2 ^ (maxBits - len n) := by
  induction k with
  | zero => rfl
  | succ k ih =>
    unfold kraft at ih ⊢
    rw [List.range_succ, List.map_append, List.filter_append, List.map_append, List.sum_append, ih,
      range_add_one, filter_insert]
    by_cases h : len k = 0
    · simp [h]
    · rw [if_pos h, sum_insert (by simp)]
      simp [h, Nat.add_comm]

theorem count_map_range (len : Nat → Nat) (k l : Nat) :
    ((List.range k).map len).count l = ((range k).filter fun n => len n = l).card := by
  rw [List.count, List.countP_map, List.countP_eq_length_filter]
  rfl

/-- Lengths of zero at the end change no code. -/
theorem genCodes_range (hjk : j ≤ k) (hz : ∀ n, j ≤ n → n < k → len n = 0) (blCount code : Nat → Nat) :
    genCodes ((List.range k).map len) blCount code = genCodes ((List.range j).map len) blCount code := by
  induction k, hjk using Nat.le_induction with
  | base => rfl
  | succ k hk ih =>
    rw [← ih fun n h1 h2 => hz n h1 (h2.trans (Nat.lt_succ_self k))]
    have hlast : ∀ s, genCode ((List.range (k + 1)).map len) s k = s := by
      intro s
      unfold genCode
      rw [getD_map_range (Nat.lt_succ_self k), hz k hk (Nat.lt_succ_self k)]
      exact if_pos rfl
    have hext : ∀ s, ∀ n ∈ List.range k, genCode ((List.range (k + 1)).map len) s n =
        genCode ((List.range k).map len) s n := by
      intro s n hn
      have hlt := List.mem_range.mp hn
      unfold genCode
      rw [getD_map_range hlt, getD_map_range (hlt.trans (Nat.lt_succ_self k))]
    unfold genCodes
    rw [List.length_map, List.length_map, List.length_range, List.length_range]
    conv_lhs => rw [List.range_succ, List.foldl_append]
    rw [List.foldl_cons, List.foldl_nil]
    have hsame : (List.range k ++ [k]).map len = (List.range (k + 1)).map len := by
      rw [List.range_succ]
    rw [hsame, hlast, List.foldl_ext _ _ _ hext]

end Lens

theorem BuiltTree.lens_le_max {kind : TreeKind} {freq : Nat → Nat} {t : BuiltTree}
    (h : t.Huffman kind.desc freq) {k : Nat} (hk : k ≤ kind.desc.elems) :
    ∀ len ∈ (List.range k).map t.len, len ≤ maxBits := by
  intro len hlen
  obtain ⟨n, hn, rfl⟩ := List.mem_map.mp hlen
  have hlt := List.mem_range.mp hn
  exact (short_of_built h).le n (by omega)

section Tree
variable {kind : TreeKind} {freq : Nat → Nat} {t : BuiltTree} (h : t.Huffman kind.desc freq)
  (hu : t.Counted kind.desc) {k : Nat} (hk : t.maxCode < k) (hk' : k ≤ kind.desc.elems)
include h hu

theorem BuiltTree.len_above {n : Nat} (hn : n < kind.desc.elems) (hlt : t.maxCode < n) : t.len n = 0 := by
  by_contra h0
  have := hu.used n hn ((h.len_ne_zero n hn).mp h0)
  omega

include hk hk'

/-- The lengths of a tree are complete. -/
theorem BuiltTree.complete_lens : Complete ((List.range k).map t.len) := by
  have hset : ((range k).filter fun n => t.len n ≠ 0) = t.used kind.desc := by
    ext n
    rw [mem_filter, mem_range, BuiltTree.used, mem_filter, mem_range]
    constructor
    · rintro ⟨hn, h0⟩
      exact ⟨by omega, (h.len_ne_zero n (by omega)).mp h0⟩
    · rintro ⟨hn, h0⟩
      have := hu.used n hn h0
      exact ⟨by omega, (h.len_ne_zero n hn).mpr h0⟩
  have hmax : kind.desc.maxLength ≤ maxBits := by cases kind <;> decide
  obtain ⟨e, he⟩ := Nat.exists_eq_add_of_le' hmax
  unfold Complete
  rw [kraft_map_range, hset]
  calc ∑ n ∈ t.used kind.desc, 2 ^ (maxBits - t.len n)
      = ∑ n ∈ t.used kind.desc, 2 ^ e * 2 ^ (kind.desc.maxLength - t.len n) := by
        refine sum_congr rfl fun n hn => ?_
        have hle := h.len_le n (mem_range.mp (mem_filter.mp hn).1)
        rw [← pow_add]
        congr 1
        omega
    _ = 2 ^ e * 2 ^ kind.desc.maxLength := by rw [← mul_sum, h.complete]
    _ = 2 ^ maxBits := by rw [← pow_add, he]

theorem BuiltTree.blCount_lens : BlCount ((List.range k).map t.len) t.blCount := by
  refine ⟨hu.zero, fun l h1 _ => ?_⟩
  unfold countLengths
  rw [count_map_range, hu.count l h1]
  congr 1
  ext n
  rw [mem_filter, mem_filter, mem_range, mem_range]
  constructor
  · rintro ⟨hn, hl⟩
    refine ⟨?_, hl⟩
    by_contra hge
    have := t.len_above h hu hn (by omega)
    omega
  · rintro ⟨hn, hl⟩
    exact ⟨by omega, hl⟩

/-- The decoder's table for the lengths of a tree has the tree's codes. -/
theorem BuiltTree.sameTree {type : CodeType} {bits : Nat} (hp : type.Passed k bits) :
    ∃ d, zngInflateTable type ((List.range k).map t.len) bits = .ok d ∧
      SameTree type bits ((List.range k).map t.len) t.blCount t.codeTree d.entry d.bits := by
  have hp' : type.Passed ((List.range k).map t.len).length bits := by
    rwa [List.length_map, List.length_range]
  have hle := BuiltTree.lens_le_max h hk'
  have hc := t.complete_lens h hu hk hk'
  obtain ⟨d, hd, -⟩ := (zngInflateTable_canonical hp' hle).1 (.inl hc)
  refine ⟨d, hd, hp', t.blCount_lens h hu hk hk', hle, hc, fun n hn => ?_, ⟨t.freq, fun n => ?_⟩,
    d, hd, rfl, rfl⟩
  · rw [List.length_map, List.length_range] at hn
    exact (getD_map_range hn).symm
  · exact (congrFun (genCodes_range (show (t.maxCode + 1).toNat ≤ k by omega)
      (fun n h1 h2 => t.len_above h hu (by omega) (by omega)) t.blCount t.freq) n).symm

end Tree

end ZlibNg
