import ZlibNg.Trees.Bitlen

/-! `build_tree` as a whole: a complete code of limited length on the symbols in use, which is
optimal when no length has to be limited. -/
namespace ZlibNg
open Finset

theorem countP_eq_card {xs : List Nat} (h : (xs.map pqNode).Nodup) (p : Nat → Prop)
    [DecidablePred p] :
    xs.countP (fun e => p (pqNode e)) = ((xs.map pqNode).toFinset.filter p).card := by
  have hfilter : (xs.map pqNode).toFinset.filter p =
      ((xs.map pqNode).filter fun x => p x).toFinset := by
    ext x
    simp only [mem_filter, List.mem_toFinset, List.mem_filter, decide_eq_true_eq]
  rw [hfilter, List.toFinset_card_of_nodup (h.filter _), List.filter_map,
    List.length_map, List.countP_eq_length_filter]
  rfl

/-- What the lengths of a tree are before the repair: along the dads, and at most `maxLength`. -/
structure TreeLens (desc : StaticTreeDesc) (sorted : List Nat) (dad : Nat → Nat) (root : Nat)
    (s : BitlenState) : Prop where
  root_len : s.dl root = 0
  lens : ∀ x ∈ ((sorted.map pqNode).toFinset ∪ Ico desc.elems root).erase root,
    s.dl x = min (s.dl (dad x) + 1) desc.maxLength
  others : ∀ x < desc.elems, x ∉ sorted.map pqNode → s.dl x = dad x
  overflow : s.overflow = ((((sorted.map pqNode).toFinset ∪ Ico desc.elems root).erase root).filter
    fun x => s.dl (dad x) = desc.maxLength).card
  count : ∀ l, s.blCount l = ((sorted.map pqNode).toFinset.filter fun x => s.dl x = l).card

section Gen
variable {desc : StaticTreeDesc} {freq : Nat → Nat} {sorted : List Nat} {dad : Nat → Nat}
  {root : Nat}

/-- Both passes of `gen_bitlen` together. -/
theorem bitlen_lens (h : LeafList desc.elems freq sorted) (hroot : desc.elems ≤ root)
    (hdad : ∀ x ∈ ((sorted.map pqNode).toFinset ∪ Ico desc.elems root).erase root,
      x < dad x ∧ desc.elems ≤ dad x ∧ dad x ≤ root) (f : Nat → Nat) (optLen staticLen : Int) :
    let r := bitlenNodes desc.elems desc.maxLength (root - desc.elems) (Function.update dad root 0, 0)
    TreeLens desc sorted dad root (sorted.foldl (BitlenState.leaf desc f)
      { dl := r.1, overflow := r.2, blCount := fun _ => 0, optLen := optLen,
        staticLen := staticLen }) := by
  have hleaf : ∀ e ∈ sorted, pqNode e ∈
      ((sorted.map pqNode).toFinset ∪ Ico desc.elems root).erase root := by
    intro e he
    have := h.node_lt e he
    exact mem_erase.mpr ⟨by omega, mem_union_left _ (List.mem_toFinset.mpr (List.mem_map_of_mem he))⟩
  have hinner : ∀ x, desc.elems ≤ x → x < root → x ∈
      ((sorted.map pqNode).toFinset ∪ Ico desc.elems root).erase root := fun x h1 h2 =>
    mem_erase.mpr ⟨by omega, mem_union_right _ (mem_Ico.mpr ⟨h1, h2⟩)⟩
  have hspan : desc.elems + (root - desc.elems) = root := by omega
  obtain ⟨h1, h2, h3⟩ := @bitlenNodes_spec desc.maxLength desc.elems dad (root - desc.elems)
    (Function.update dad root 0) 0
    (fun x hx => Function.update_of_ne (by omega) _ _)
    (fun x hx hx' => (hdad x (hinner x hx (by omega))).1)
  rw [hspan] at h1 h2 h3
  dsimp only
  generalize bitlenNodes desc.elems desc.maxLength (root - desc.elems) _ = r at *
  obtain ⟨g1, g2, g3, g4⟩ := @leaf_foldl desc f dad sorted
    { dl := r.1, overflow := r.2, blCount := fun _ => 0, optLen := optLen, staticLen := staticLen }
    h.nodup
    (fun e he => by
      have := h.node_lt e he
      dsimp only
      rw [h1 _ (.inl this), Function.update_of_ne (by omega)])
    (fun e he e' he' heq => by
      have := (hdad _ (hleaf e he)).2.1
      have := h.node_lt e' he'
      omega)
  generalize sorted.foldl (BitlenState.leaf desc f) _ = s at *
  dsimp only at g1 g2 g3 g4
  have hnot : ∀ x, desc.elems ≤ x → x ∉ sorted.map pqNode := by
    intro x hx hmem
    obtain ⟨e, he, rfl⟩ := List.mem_map.mp hmem
    have := h.node_lt e he
    omega
  have hsame : ∀ x, desc.elems ≤ x → s.dl x = r.1 x := fun x hx => g1 x (hnot x hx)
  have hroot0 : s.dl root = 0 := by
    rw [hsame root hroot, h1 root (.inr le_rfl), Function.update_self]
  have hlens : ∀ x ∈ ((sorted.map pqNode).toFinset ∪ Ico desc.elems root).erase root,
      s.dl x = min (s.dl (dad x) + 1) desc.maxLength := by
    intro x hx
    rw [hsame (dad x) (hdad x hx).2.1]
    rcases mem_union.mp (mem_of_mem_erase hx) with hx | hx
    · obtain ⟨e, he, rfl⟩ := List.mem_map.mp (List.mem_toFinset.mp hx)
      exact g2 e he
    · obtain ⟨hx1, hx2⟩ := mem_Ico.mp hx
      rw [hsame x hx1]
      exact h2 x hx1 hx2
  -- a length that reaches the limit is equal to it
  have hlimit : ∀ x ∈ ((sorted.map pqNode).toFinset ∪ Ico desc.elems root).erase root,
      (desc.maxLength ≤ r.1 (dad x) ↔ s.dl (dad x) = desc.maxLength) := by
    intro x hx
    obtain ⟨-, hd2, hd3⟩ := hdad x hx
    rw [← hsame _ hd2]
    refine ⟨fun hle => Nat.le_antisymm ?_ hle, fun he => he.ge⟩
    by_cases hr : dad x = root
    · rw [hr, hroot0]
      exact Nat.zero_le _
    · rw [hlens (dad x) (hinner _ hd2 (by omega))]
      exact Nat.min_le_right _ _
  refine ⟨hroot0, hlens, fun x hx hmem => ?_, ?_, fun l => ?_⟩
  · rw [g1 x hmem, h1 x (.inl hx), Function.update_of_ne (by omega)]
  · have herase : ((sorted.map pqNode).toFinset ∪ Ico desc.elems root).erase root =
        (sorted.map pqNode).toFinset ∪ Ico desc.elems root := by
      refine erase_eq_of_notMem fun hmem => ?_
      rcases mem_union.mp hmem with hmem | hmem
      · exact hnot root hroot (List.mem_toFinset.mp hmem)
      · exact (mem_Ico.mp hmem).2.false
    have hdisj : Disjoint (sorted.map pqNode).toFinset (Ico desc.elems root) := by
      rw [disjoint_left]
      exact fun x hx hx' => hnot x (mem_Ico.mp hx').1 (List.mem_toFinset.mp hx)
    rw [← filter_congr hlimit, herase, filter_union,
      card_union_of_disjoint (disjoint_filter_filter hdisj), g3, h3,
      countP_eq_card h.nodup fun x => desc.maxLength ≤ r.1 (dad x)]
    omega
  · rw [g4 l, Nat.zero_add]
    exact countP_eq_card h.nodup fun x => s.dl x = l

end Gen

/-- The counts of lengths of at most `m` have the Kraft sum of the lengths. -/
theorem countKraft_card {m : Nat} {s : Finset Nat} {len c : Nat → Nat} (hlen : ∀ x ∈ s, len x ≤ m)
    (hc : ∀ l, c l = (s.filter fun x => len x = l).card) :
    countKraft m c = ∑ x ∈ s, 2 ^ (m - len x) ∧ countCodes m c = s.card := by
  have hmaps : ∀ x ∈ s, len x ∈ range (m + 1) := fun x hx =>
    mem_range.mpr (Nat.lt_succ_of_le (hlen x hx))
  constructor
  · rw [← sum_fiberwise_of_maps_to hmaps]
    refine sum_congr rfl fun l _ => ?_
    rw [hc, sum_congr rfl fun x hx => by rw [(mem_filter.mp hx).2], sum_const, smul_eq_mul]
  · rw [card_eq_sum_card_fiberwise hmaps]
    exact sum_congr rfl fun l _ => hc l

/-- Lengths that overflow the code space, one at least of the greatest length, can be repaired. -/
theorem Excess.of_lens {m d : Nat} {s : Finset Nat} {len c : Nat → Nat}
    (hlen : ∀ x ∈ s, 1 ≤ len x ∧ len x ≤ m) (hc : ∀ l, c l = (s.filter fun x => len x = l).card)
    (hsum : ∑ x ∈ s, 2 ^ (m - len x) = 2 ^ m + d) (hle : d ≤ (s.filter fun x => len x = m).card)
    (hcard : s.card ≤ 2 ^ m) : Excess m c d := by
  obtain ⟨hkraft, hcount⟩ := countKraft_card (fun x hx => (hlen x hx).2) hc
  refine ⟨?_, hkraft.trans hsum, hle.trans (hc m).ge, hcount.trans_le hcard⟩
  rw [hc, card_eq_zero, filter_eq_empty_iff]
  intro x hx h0
  have := (hlen x hx).1
  omega

section Leaves
variable {desc : StaticTreeDesc} {freq dl : Nat → Nat} {sorted : List Nat}

theorem LeafList.lt_elems {elems : Nat} (h : LeafList elems freq sorted) {x : Nat}
    (hx : x ∈ (sorted.map pqNode).toFinset) : x < elems := by
  obtain ⟨e, he, rfl⟩ := List.mem_map.mp (List.mem_toFinset.mp hx)
  exact h.node_lt e he

variable {dad : Nat → Nat} {root : Nat} {s : BitlenState}

/-- Every leaf has a length before the repair. -/
theorem TreeLens.leaves (ht : TreeLens desc sorted dad root s) (h : LeafList desc.elems freq sorted)
    (hroot : desc.elems ≤ root) (hmax : 1 ≤ desc.maxLength) :
    ∀ x ∈ (sorted.map pqNode).toFinset, 1 ≤ s.dl x ∧ s.dl x ≤ desc.maxLength := by
  intro x hx
  have := h.lt_elems hx
  rw [ht.lens x (mem_erase.mpr ⟨by omega, mem_union_left _ hx⟩)]
  omega

/-- The other symbols have the length zero that they came with. -/
theorem TreeLens.others_zero (ht : TreeLens desc sorted dad root s)
    (h : LeafList desc.elems freq sorted)
    (hkeep : ∀ x, x ∉ (sorted.map pqNode).toFinset → x < desc.elems → dad x = dl x)
    (hzero : ∀ x < desc.elems, freq x = 0 → dl x = 0) :
    ∀ x < desc.elems, x ∉ sorted.map pqNode → s.dl x = 0 := by
  intro x hx hmem
  rw [ht.others x hx hmem, hkeep x (fun hx' => hmem (List.mem_toFinset.mp hx')) hx]
  refine hzero x hx ?_
  by_contra h0
  exact hmem ((h.mem x hx).mp h0)

end Leaves

/-- The merge starts with all leaves in one queue. -/
theorem SortedLeaves.start_inv {elems k : Nat} {freq dl : Nat → Nat} {sorted : List Nat}
    (h : SortedLeaves elems freq sorted) (hk : sorted.length = k + 2)
    (hroom : elems + (k + 1) ≤ 2 ^ 10) :
    MergeState.Inv ⟨sorted, [], elems, freq, dl⟩ (k + 1) := by
  have hitems : MergeState.items ⟨sorted, [], elems, freq, dl⟩ = sorted := List.append_nil _
  refine ⟨h.pairwise, List.Pairwise.nil, ?_, ?_, ?_, fun y hy => absurd hy List.not_mem_nil, ?_,
    hroom, ?_, fun h0 => absurd h0 (Nat.succ_ne_zero k)⟩
  · rw [hitems]
    exact h.nodup
  · rw [hitems]
    exact h.node_lt
  · rw [hitems]
    exact h.freq_eq
  · rw [hitems, hk]
  · rw [hitems]
    refine h.total.imp_right fun h2 => ?_
    omega

/-- The symbols of a tree that are in use. -/
def BuiltTree.used (desc : StaticTreeDesc) (t : BuiltTree) : Finset Nat :=
  (range desc.elems).filter fun n => t.freq n ≠ 0

/-- What `build_tree` makes of the frequencies `freq`. -/
structure BuiltTree.Huffman (desc : StaticTreeDesc) (freq : Nat → Nat) (t : BuiltTree) : Prop where
  kept : ∀ n < desc.elems, freq n ≠ 0 → t.freq n = freq n
  forced : ∀ n < desc.elems, freq n = 0 → t.freq n ≠ 0 → t.freq n = 1
  used_card : (t.used desc).card = max 2 ((range desc.elems).filter fun n => freq n ≠ 0).card
  len_ne_zero : ∀ n < desc.elems, (t.len n ≠ 0 ↔ t.freq n ≠ 0)
  len_le : ∀ n < desc.elems, t.len n ≤ desc.maxLength
  complete : ∑ n ∈ t.used desc, 2 ^ (desc.maxLength - t.len n) = 2 ^ desc.maxLength
  optimal : t.overflow = 0 → ∀ code : Nat → List Bool, PrefixFree (t.used desc) code →
    ∑ n ∈ t.used desc, t.freq n * t.len n ≤ ∑ n ∈ t.used desc, t.freq n * (code n).length

/-- The three trees leave room for their nodes, and have fewer symbols than codes. -/
theorem TreeKind.bounds (kind : TreeKind) : 3 ≤ kind.desc.elems ∧ 2 * kind.desc.elems ≤ 2 ^ 10 ∧
    kind.desc.elems ≤ 2 ^ kind.desc.maxLength ∧ 1 ≤ kind.desc.maxLength := by
  cases kind <;> decide

/-- The symbols and lengths of a tree, from those of the sorted leaves. -/
theorem BuiltTree.huffman_of {desc : StaticTreeDesc} {freq freq' : Nat → Nat} {sorted : List Nat}
    {t : BuiltTree} (h : SortedLeaves desc.elems freq' sorted) (hf : Forced desc.elems freq freq')
    (hfreq : ∀ n < desc.elems, t.freq n = freq' n)
    (hlen : ∀ x ∈ (sorted.map pqNode).toFinset, 1 ≤ t.len x ∧ t.len x ≤ desc.maxLength)
    (hother : ∀ x < desc.elems, x ∉ sorted.map pqNode → t.len x = 0)
    (hsum : ∑ x ∈ (sorted.map pqNode).toFinset, 2 ^ (desc.maxLength - t.len x) = 2 ^ desc.maxLength)
    (hopt : t.overflow = 0 → ∀ code : Nat → List Bool,
      PrefixFree (sorted.map pqNode).toFinset code →
      ∑ n ∈ (sorted.map pqNode).toFinset, t.freq n * t.len n ≤
        ∑ n ∈ (sorted.map pqNode).toFinset, t.freq n * (code n).length) : t.Huffman desc freq := by
  have hused : t.used desc = (sorted.map pqNode).toFinset := by
    ext n
    rw [BuiltTree.used, List.mem_toFinset, mem_filter, mem_range]
    constructor
    · rintro ⟨hlt, hn⟩
      rw [hfreq n hlt] at hn
      exact (h.mem n hlt).mp hn
    · intro hn
      have hlt := h.lt_elems (List.mem_toFinset.mpr hn)
      exact ⟨hlt, by rw [hfreq n hlt]; exact (h.mem n hlt).mpr hn⟩
  have hcard : ∀ f : Nat → Nat, ((range desc.elems).filter fun n => f n ≠ 0).card =
      ((List.range desc.elems).filter fun n => f n ≠ 0).length := fun f => rfl
  refine ⟨fun n hn h0 => ?_, fun n hn h0 h1 => ?_, ?_, fun n hn => ?_, fun n hn => ?_, ?_, ?_⟩
  · rw [hfreq n hn]
    exact hf.kept n h0
  · rw [hfreq n hn] at h1 ⊢
    exact hf.forced n h0 h1
  · rw [hused, List.toFinset_card_of_nodup h.nodup, List.length_map, ← h.length_eq, hcard]
    rcases Nat.lt_or_ge ((List.range desc.elems).filter fun n => freq n ≠ 0).length 2 with hlt | hge
    · rw [hf.two hlt]
      omega
    · rw [hf.enough hge]
      omega
  · rw [hfreq n hn, h.mem n hn]
    constructor
    · intro h0
      by_contra hmem
      exact h0 (hother n hn hmem)
    · intro hmem
      have := (hlen n (List.mem_toFinset.mpr hmem)).1
      omega
  · by_cases hmem : n ∈ sorted.map pqNode
    · exact (hlen n (List.mem_toFinset.mpr hmem)).2
    · rw [hother n hn hmem]
      exact Nat.zero_le _
  · rw [hused]
    exact hsum
  · rw [hused]
    exact hopt

theorem buildTree_huffman (kind : TreeKind) (freq dl : Nat → Nat) (optLen staticLen : Int)
    (htotal : ((List.range kind.desc.elems).map freq).sum ≤ 65535) :
    ∃ t, buildTree kind.desc freq dl optLen staticLen = some t ∧ t.Huffman kind.desc freq := by
  obtain ⟨hel, hroom, hcodes, hmax⟩ := kind.bounds
  generalize kind.desc = desc at *
  have hroom' : desc.elems ≤ 2 ^ 10 := by omega
  obtain ⟨hsorted, hlen, hforced, hzero⟩ := @scan_sorted desc freq dl optLen staticLen hel hroom'
    (by omega)
  unfold buildTree
  dsimp only
  generalize ((List.range desc.elems).foldl TreeScan.step _).force desc = scan at *
  have htwo := hsorted.two
  have hcard := hsorted.length_eq
  have hle := List.length_filter_le (fun n => decide (scan.freq n ≠ 0)) (List.range desc.elems)
  rw [List.length_range] at hle
  obtain ⟨k, hk⟩ : ∃ k, scan.leaves.length - 1 = k + 1 := ⟨scan.leaves.length - 2, by omega⟩
  set s₀ : MergeState := ⟨scan.sorted, [], desc.elems, scan.freq, scan.dl⟩ with hs₀
  have hitems : s₀.items = scan.sorted := List.append_nil _
  have hinv : s₀.Inv (k + 1) := hsorted.start_inv (by omega) (by omega)
  rw [hk]
  obtain ⟨h1, h2, h3, h4, h5⟩ := @MergeState.run_spec _ _ hinv (desc.elems + k)
    (show desc.elems + k + 1 = desc.elems + (k + 1) by omega)
  have hnodes : s₀.nodes = (scan.sorted.map pqNode).toFinset := by rw [MergeState.nodes, hitems]
  rw [hnodes, hitems] at h5
  rw [hnodes] at h2 h4
  change (∀ x < desc.elems, _) at h3
  change ∀ x, _ → x < desc.elems → _ at h2
  change ∀ x ∈ (_ ∪ Ico desc.elems _).erase _, _ ∧ desc.elems ≤ _ ∧ _ at h4
  generalize MergeState.run (k + 1) s₀ = r at *
  rw [h1, Nat.add_sub_cancel]
  -- the lengths before the repair
  have htree := bitlen_lens hsorted.toLeafList (Nat.le_add_right _ k) h4 r.freq scan.optLen
    scan.staticLen
  unfold genBitlen
  dsimp only at htree ⊢
  generalize List.foldl (BitlenState.leaf desc r.freq) _ scan.sorted = s at *
  have hlens := htree.leaves hsorted.toLeafList (Nat.le_add_right _ k) hmax
  have hother := htree.others_zero hsorted.toLeafList h2 hzero
  obtain ⟨c, hgreedy, hcut⟩ := h5
    (fun x => if x = desc.elems + k then (scan.sorted.map pqFreq).sum else r.freq x)
    (fun x hx => if_neg hx) (.inl (if_pos rfl))
  obtain ⟨e, he⟩ := hcut s.dl desc.maxLength hmax htree.root_len htree.lens
  have hover : s.overflow = 2 * e := htree.overflow.trans he.overflow
  have hweight : ∀ len : Nat → Nat, ∑ x ∈ (scan.sorted.map pqNode).toFinset,
      (if x = desc.elems + k then (scan.sorted.map pqFreq).sum else r.freq x) * len x =
        ∑ x ∈ (scan.sorted.map pqNode).toFinset, r.freq x * len x := by
    intro len
    refine sum_congr rfl fun x hx => ?_
    have := hsorted.lt_elems hx
    rw [if_neg (by omega)]
  have hcards : (scan.sorted.map pqNode).toFinset.card = scan.sorted.length := by
    rw [List.toFinset_card_of_nodup hsorted.nodup, List.length_map]
  obtain ⟨hkraft, hcount⟩ := countKraft_card (fun x hx => (hlens x hx).2) htree.count
  rcases Nat.eq_zero_or_pos e with rfl | hpos
  · rw [if_pos (by omega), Option.map_some]
    refine ⟨_, rfl, BuiltTree.huffman_of hsorted hforced h3 hlens hother he.sum fun _ code hcode => ?_⟩
    have hcost := hgreedy.le_prefixFree (by omega) hcode
    rw [← he.cost rfl, hweight, hweight] at hcost
    exact hcost
  · obtain ⟨d, rfl⟩ := Nat.exists_eq_succ_of_ne_zero hpos.ne'
    have hexcess : Excess desc.maxLength s.blCount (d + 1) :=
      .of_lens hlens htree.count he.sum he.le (by omega)
    obtain ⟨c', hloop, hc0, hck, hcn⟩ := repairLoop_spec hexcess
    rw [if_neg (by omega), hover, hloop, Option.map_some, Option.map_some]
    obtain ⟨g1, g2, g3⟩ := @recompute_spec _ r.freq desc.maxLength desc.maxLength scan.sorted
      (s.dl, s.optLen) hc0 hsorted.nodup (by
        change _ = countCodes desc.maxLength c'
        rw [hcn, hcount, hcards])
    refine ⟨_, rfl, BuiltTree.huffman_of hsorted hforced h3
      (fun x hx => g2 x (List.mem_toFinset.mp hx)) (fun x hx hmem => ?_) ?_ fun h0 => ?_⟩
    · dsimp only
      rw [g1 x hmem]
      exact hother x hx hmem
    · dsimp only
      rw [List.sum_toFinset _ hsorted.nodup, g3]
      exact hck
    · dsimp only at h0
      omega

/-- Four bit lengths with the frequencies 1, 2, 3 and 4. -/
theorem buildTree_huffman_four :
    ∃ t, buildTree TreeKind.bitLength.desc (fun n => if n < 4 then n + 1 else 0) (fun _ => 0) 0 0 =
      some t ∧ t.Huffman TreeKind.bitLength.desc fun n => if n < 4 then n + 1 else 0 :=
  buildTree_huffman .bitLength _ _ 0 0 (by decide)

end ZlibNg
