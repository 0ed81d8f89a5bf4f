import ZlibNg.Trees.Optimal
import ZlibNg.Trees.Radix

/-! The merges of a Huffman tree: the two queues give the two least weights, and what lengths
along the dads add up to. -/
namespace ZlibNg
open Finset

/-- The nodes that wait in the queues. -/
def MergeState.items (s : MergeState) : List Nat := s.leaves ++ s.internals

def MergeState.nodes (s : MergeState) : Finset Nat := (s.items.map pqNode).toFinset

/-- Before `k` merges: the queues ascend, and no created node weighs more than twice any other. -/
structure MergeState.Inv (s : MergeState) (k : Nat) : Prop where
  leaves : s.leaves.Pairwise (· < ·)
  internals : s.internals.Pairwise (· < ·)
  nodup : (s.items.map pqNode).Nodup
  node_lt : ∀ e ∈ s.items, pqNode e < s.node
  freq_eq : ∀ e ∈ s.items, pqFreq e = s.freq (pqNode e)
  double : ∀ y ∈ s.internals, ∀ x ∈ s.items, pqFreq y ≤ 2 * pqFreq x
  length : s.items.length = k + 1
  room : s.node + k ≤ 2 ^ 10
  total : (s.items.map pqFreq).sum < 2 ^ 16 ∨ k ≤ 1
  last : k = 0 → ∀ e ∈ s.items, pqNode e + 1 = s.node

/-- What keeps the queues in order: created nodes weigh at most twice any other. -/
structure MergeState.Ordered (s : MergeState) : Prop where
  leaves : s.leaves.Pairwise (· < ·)
  internals : s.internals.Pairwise (· < ·)
  node_lt : ∀ e ∈ s.items, pqNode e < s.node
  double : ∀ y ∈ s.internals, ∀ x ∈ s.items, pqFreq y ≤ 2 * pqFreq x

theorem MergeState.Inv.ordered {s : MergeState} {k : Nat} (h : s.Inv k) : s.Ordered :=
  ⟨h.leaves, h.internals, h.node_lt, h.double⟩

/-- A queue head that is taken is the least entry. -/
theorem pqTake_spec {leaves internals : List Nat} (hl : leaves.Pairwise (· < ·))
    (hi : internals.Pairwise (· < ·)) (hne : leaves ++ internals ≠ []) :
    ∃ e leaves' internals', pqTake leaves internals = (e, leaves', internals') ∧
      (e :: (leaves' ++ internals')).Perm (leaves ++ internals) ∧
      leaves'.Sublist leaves ∧ internals'.Sublist internals ∧
      ∀ x ∈ leaves' ++ internals', e ≤ x := by
  cases leaves with
  | nil =>
    cases internals with
    | nil => exact absurd rfl hne
    | cons i is =>
      refine ⟨i, [], is, rfl, List.Perm.refl _, List.Sublist.refl _, List.sublist_cons_self _ _,
        fun x hx => ?_⟩
      exact (List.rel_of_pairwise_cons hi hx).le
  | cons l ls =>
    cases internals with
    | nil =>
      refine ⟨l, ls, [], rfl, List.Perm.refl _, List.sublist_cons_self _ _, List.Sublist.refl _,
        fun x hx => ?_⟩
      rw [List.append_nil] at hx
      exact (List.rel_of_pairwise_cons hl hx).le
    | cons i is =>
      by_cases hlt : l < i
      · refine ⟨l, ls, i :: is, by simp only [pqTake, if_pos hlt], List.Perm.refl _,
          List.sublist_cons_self _ _, List.Sublist.refl _, fun x hx => ?_⟩
        rcases List.mem_append.mp hx with hx | hx
        · exact (List.rel_of_pairwise_cons hl hx).le
        · rcases List.mem_cons.mp hx with rfl | hx
          · exact hlt.le
          · exact hlt.le.trans (List.rel_of_pairwise_cons hi hx).le
      · refine ⟨i, l :: ls, is, by simp only [pqTake, if_neg hlt], List.perm_middle.symm,
          List.Sublist.refl _, List.sublist_cons_self _ _, fun x hx => ?_⟩
        rcases List.mem_append.mp hx with hx | hx
        · rcases List.mem_cons.mp hx with rfl | hx
          · omega
          · exact (not_lt.mp hlt).trans (List.rel_of_pairwise_cons hl hx).le
        · exact (List.rel_of_pairwise_cons hi hx).le

/-- What a merge does: `en` and `em` are the two least entries. -/
structure MergeState.Takes (s : MergeState) (en em : Nat) (leaves internals : List Nat) :
    Prop where
  step : s.step =
    { leaves := leaves
      internals := internals ++ [pqPack ((pqFreq en + pqFreq em) % 2 ^ 16) s.node]
      node := s.node + 1
      freq := Function.update s.freq s.node ((pqFreq en + pqFreq em) % 2 ^ 16)
      dl := Function.update (Function.update s.dl (pqNode em) s.node) (pqNode en) s.node }
  perm : (en :: em :: (leaves ++ internals)).Perm s.items
  sub_leaves : leaves.Sublist s.leaves
  sub_internals : internals.Sublist s.internals
  le : en ≤ em
  least : ∀ x ∈ leaves ++ internals, em ≤ x

section Step
variable {s : MergeState} {k : Nat}

/-- Two queue heads are the two least entries. -/
theorem MergeState.Ordered.takes_heads (h : s.Ordered) (hlen : 2 ≤ s.items.length) :
    let en := pqTake s.leaves s.internals
    let em := pqTake en.2.1 en.2.2
    s.Takes en.1 em.1 em.2.1 em.2.2 := by
  obtain ⟨en, l1, i1, ht1, hp1, hl1, hi1, hmin1⟩ := pqTake_spec h.leaves h.internals
    (by rw [← MergeState.items, ← List.length_pos_iff]; omega)
  have hlen1 := hp1.length_eq
  rw [List.length_cons] at hlen1
  obtain ⟨em, l2, i2, ht2, hp2, hl2, hi2, hmin2⟩ := pqTake_spec (h.leaves.sublist hl1)
    (h.internals.sublist hi1) (by
      rw [← List.length_pos_iff]
      unfold MergeState.items at hlen
      omega)
  rw [ht1]
  dsimp only
  rw [ht2]
  refine ⟨?_, (hp2.cons en).trans hp1, hl2.trans hl1, hi2.trans hi1,
    hmin1 em (hp2.mem_iff.mp List.mem_cons_self), hmin2⟩
  simp only [MergeState.step, ht1, ht2]

theorem MergeState.Inv.takes (h : s.Inv (k + 1)) :
    ∃ en em leaves internals, s.Takes en em leaves internals :=
  ⟨_, _, _, _, h.ordered.takes_heads (by rw [h.length]; omega)⟩

variable {en em : Nat} {leaves internals : List Nat}

theorem MergeState.Takes.en_mem (h : s.Takes en em leaves internals) : en ∈ s.items :=
  h.perm.mem_iff.mp List.mem_cons_self

theorem MergeState.Takes.em_mem (h : s.Takes en em leaves internals) : em ∈ s.items :=
  h.perm.mem_iff.mp (List.mem_cons_of_mem _ List.mem_cons_self)

theorem MergeState.Takes.rest_mem (h : s.Takes en em leaves internals) {x : Nat}
    (hx : x ∈ leaves ++ internals) : x ∈ s.items :=
  h.perm.mem_iff.mp (List.mem_cons_of_mem _ (List.mem_cons_of_mem _ hx))

/-- The nodes of all entries are different. -/
theorem MergeState.Takes.distinct (h : s.Takes en em leaves internals) (hi : s.Inv k) :
    pqNode en ≠ pqNode em ∧ pqNode en ∉ (leaves ++ internals).map pqNode ∧
      pqNode em ∉ (leaves ++ internals).map pqNode ∧
      ((leaves ++ internals).map pqNode).Nodup := by
  have hnodup := (h.perm.map pqNode).nodup_iff.mpr hi.nodup
  rw [List.map_cons, List.map_cons, List.nodup_cons, List.nodup_cons, List.mem_cons] at hnodup
  exact ⟨fun he => hnodup.1 (.inl he), fun hm => hnodup.1 (.inr hm), hnodup.2.1, hnodup.2.2⟩

theorem MergeState.Takes.items_step (h : s.Takes en em leaves internals) : s.step.items =
    leaves ++ internals ++ [pqPack ((pqFreq en + pqFreq em) % 2 ^ 16) s.node] := by
  rw [MergeState.items, h.step, List.append_assoc]

theorem MergeState.Takes.sum_eq (h : s.Takes en em leaves internals) :
    (s.items.map pqFreq).sum = pqFreq en + pqFreq em + ((leaves ++ internals).map pqFreq).sum := by
  rw [← (h.perm.map pqFreq).sum_eq, List.map_cons, List.map_cons, List.sum_cons, List.sum_cons]
  omega

/-- The new frequency is exact except for the last merge. -/
theorem MergeState.Takes.exact (h : s.Takes en em leaves internals) (hi : s.Inv (k + 1)) :
    (pqFreq en + pqFreq em) % 2 ^ 16 = pqFreq en + pqFreq em ∨ k = 0 := by
  rcases hi.total with ht | ht
  · left
    rw [h.sum_eq] at ht
    exact Nat.mod_eq_of_lt (by omega)
  · right
    omega

/-- A merge keeps the order when the new frequency is exact, or nothing else is left. -/
theorem MergeState.Takes.ordered (h : s.Takes en em leaves internals) (hs : s.Ordered)
    (hroom : s.node < 2 ^ 10)
    (hexact : (pqFreq en + pqFreq em) % 2 ^ 16 = pqFreq en + pqFreq em ∨ leaves ++ internals = []) :
    s.step.Ordered := by
  have hnode := pqNode_pack ((pqFreq en + pqFreq em) % 2 ^ 16) hroom
  have hfreq := pqFreq_pack ((pqFreq en + pqFreq em) % 2 ^ 16) hroom
  have hlt : ∀ x ∈ leaves ++ internals, pqNode x < s.node := fun x hx =>
    hs.node_lt x (h.rest_mem hx)
  have hitems := h.items_step
  have hstep_leaves : s.step.leaves = leaves := by rw [h.step]
  have hstep_internals : s.step.internals =
      internals ++ [pqPack ((pqFreq en + pqFreq em) % 2 ^ 16) s.node] := by rw [h.step]
  have hstep_node : s.step.node = s.node + 1 := by rw [h.step]
  have hmod := Nat.mod_le (pqFreq en + pqFreq em) (2 ^ 16)
  have hle := pqFreq_mono h.le
  -- what is left weighs at least as much as either, and created nodes at most twice the least
  have hrest : ∀ x ∈ leaves ++ internals, pqFreq em ≤ pqFreq x := fun x hx =>
    pqFreq_mono (h.least x hx)
  have hold : ∀ y ∈ internals, pqFreq y ≤ 2 * pqFreq en := fun y hy =>
    hs.double y (h.sub_internals.subset hy) en h.en_mem
  have hnew : ∀ y ∈ internals, pqFreq y ≤ (pqFreq en + pqFreq em) % 2 ^ 16 := by
    intro y hy
    rcases hexact with he | hnil
    · have := hold y hy
      omega
    · rw [(List.append_eq_nil_iff.mp hnil).2] at hy
      exact absurd hy List.not_mem_nil
  refine ⟨?_, ?_, ?_, ?_⟩
  · rw [hstep_leaves]
    exact hs.leaves.sublist h.sub_leaves
  · rw [hstep_internals, List.pairwise_append]
    refine ⟨hs.internals.sublist h.sub_internals, List.pairwise_singleton _ _, fun y hy x hx => ?_⟩
    rw [List.mem_singleton] at hx
    subst hx
    have h1 := hnew y hy
    have h2 := hlt y (List.mem_append_right _ hy)
    rw [pqPack_eq _ hroom]
    rw [pqFreq, pqNodeBits, Nat.shiftRight_eq_div_pow] at h1
    rw [pqNode, pqNodeBits] at h2
    omega
  · intro e he
    rw [hitems, List.mem_append, List.mem_singleton] at he
    rw [hstep_node]
    rcases he with he | rfl
    · have := hlt e he
      omega
    · rw [hnode]
      omega
  · intro y hy x hx
    rw [hstep_internals, List.mem_append, List.mem_singleton] at hy
    rw [hitems, List.mem_append, List.mem_singleton] at hx
    rcases hx with hx | rfl
    · have hx' := hrest x hx
      rcases hy with hy | rfl
      · have := hold y hy
        omega
      · rw [hfreq]
        omega
    · rw [hfreq]
      rcases hy with hy | rfl
      · have := hnew y hy
        omega
      · rw [hfreq]
        omega

/-- A merge keeps the invariant. -/
theorem MergeState.Takes.inv (h : s.Takes en em leaves internals) (hi : s.Inv (k + 1)) :
    s.step.Inv k := by
  have hroom := hi.room
  have hnode := pqNode_pack ((pqFreq en + pqFreq em) % 2 ^ 16) (show s.node < 2 ^ 10 by omega)
  have hfreq := pqFreq_pack ((pqFreq en + pqFreq em) % 2 ^ 16) (show s.node < 2 ^ 10 by omega)
  obtain ⟨hne, hn, hm, hnodup⟩ := h.distinct hi
  have hlt : ∀ x ∈ leaves ++ internals, pqNode x < s.node := fun x hx =>
    hi.node_lt x (h.rest_mem hx)
  have hlen := h.perm.length_eq
  rw [List.length_cons, List.length_cons, hi.length] at hlen
  have hitems := h.items_step
  have hstep_node : s.step.node = s.node + 1 := by rw [h.step]
  have hstep_freq : s.step.freq = Function.update s.freq s.node ((pqFreq en + pqFreq em) % 2 ^ 16) := by
    rw [h.step]
  have hmod := Nat.mod_le (pqFreq en + pqFreq em) (2 ^ 16)
  have hempty : k = 0 → leaves ++ internals = [] := fun hk =>
    List.eq_nil_of_length_eq_zero (by omega)
  have hordered := h.ordered hi.ordered (by omega) ((h.exact hi).imp_right hempty)
  refine ⟨hordered.leaves, hordered.internals, ?_, hordered.node_lt, ?_, hordered.double, ?_, ?_, ?_,
    ?_⟩
  · rw [hitems, List.map_append, List.nodup_append]
    refine ⟨hnodup, List.pairwise_singleton _ _, fun a ha b hb => ?_⟩
    rw [List.map_singleton, List.mem_singleton, hnode] at hb
    obtain ⟨x, hx, rfl⟩ := List.mem_map.mp ha
    have := hlt x hx
    omega
  · intro e he
    rw [hitems, List.mem_append, List.mem_singleton] at he
    rw [hstep_freq]
    rcases he with he | rfl
    · have := hlt e he
      rw [Function.update_of_ne (by omega)]
      exact hi.freq_eq e (h.rest_mem he)
    · rw [hnode, hfreq, Function.update_self]
  · rw [hitems, List.length_append, List.length_singleton]
    omega
  · rw [hstep_node]
    omega
  · rcases hi.total with ht | ht
    · left
      rw [hitems, List.map_append, List.sum_append, List.map_singleton, List.sum_singleton, hfreq]
      rw [h.sum_eq] at ht
      omega
    · right
      omega
  · intro hk e he
    rw [hitems, hempty hk, List.nil_append, List.mem_singleton] at he
    rw [he, hnode, hstep_node]

theorem MergeState.Takes.nodes_eq (h : s.Takes en em leaves internals) : s.nodes =
    insert (pqNode en) (insert (pqNode em) ((leaves ++ internals).map pqNode).toFinset) := by
  rw [MergeState.nodes, ← List.toFinset_eq_of_perm _ _ (h.perm.map pqNode), List.map_cons,
    List.map_cons, List.toFinset_cons, List.toFinset_cons]

theorem MergeState.Takes.nodes_step (h : s.Takes en em leaves internals) (hs : s.node < 2 ^ 10) :
    s.step.nodes = insert s.node ((leaves ++ internals).map pqNode).toFinset := by
  rw [MergeState.nodes, h.items_step, List.map_append, List.map_singleton, pqNode_pack _ hs,
    List.toFinset_append, List.toFinset_cons, List.toFinset_nil, insert_empty_eq, union_comm,
    insert_eq]

end Step

/-- What lengths of at most `m` along the dads come to on the nodes `s`, where `r` has all nodes
above and in `s` except the root: every two sons of a node of length `m` overflow. -/
structure CutSum (w dl len : Nat → Nat) (m : Nat) (s r : Finset Nat) (c e : Nat) : Prop where
  sum : ∑ x ∈ s, 2 ^ (m - len x) = 2 ^ m + e
  le : e ≤ (s.filter fun x => len x = m).card
  overflow : (r.filter fun x => len (dl x) = m).card = 2 * e
  cost : e = 0 → ∑ x ∈ s, w x * len x = c

/-- A node is replaced by its two sons. -/
theorem CutSum.split {w dl len : Nat → Nat} {m c e f n o : Nat} {t r : Finset Nat}
    (h : CutSum w dl len m (insert f t) r c e) (hf : f ∉ t) (hno : n ≠ o) (hn : n ∉ t) (ho : o ∉ t)
    (hnr : n ∉ r) (hor : o ∉ r) (hdn : dl n = f) (hdo : dl o = f) (hfm : len f ≤ m)
    (hln : len n = min (len f + 1) m) (hlo : len o = min (len f + 1) m) (hw : w f = w n + w o) :
    CutSum w dl len m (insert n (insert o t)) (insert n (insert o r)) (w n + w o + c)
      (e + if len f = m then 1 else 0) := by
  have hn' : n ∉ insert o t := by
    rw [mem_insert]
    exact fun hor => hor.elim hno hn
  have hnr' : n ∉ insert o r := by
    rw [mem_insert]
    exact fun hor => hor.elim hno hnr
  have hsum := h.sum
  have hle := h.le
  have hover := h.overflow
  rw [sum_insert hf] at hsum
  rw [filter_insert] at hle
  have hft : f ∉ t.filter fun x => len x = m := fun hmem => hf (mem_filter.mp hmem).1
  have hot : o ∉ t.filter fun x => len x = m := fun hmem => ho (mem_filter.mp hmem).1
  have hnt : n ∉ insert o (t.filter fun x => len x = m) := by
    rw [mem_insert]
    exact fun hor => hor.elim hno fun hmem => hn (mem_filter.mp hmem).1
  have hor' : o ∉ r.filter fun x => len (dl x) = m := fun hmem => hor (mem_filter.mp hmem).1
  have hnr'' : n ∉ insert o (r.filter fun x => len (dl x) = m) := by
    rw [mem_insert]
    exact fun hor => hor.elim hno fun hmem => hnr (mem_filter.mp hmem).1
  refine ⟨?_, ?_, ?_, fun he => ?_⟩
  · rw [sum_insert hn', sum_insert ho, hln, hlo]
    by_cases hlf : len f = m
    · rw [if_pos hlf, hlf, Nat.min_eq_right (Nat.le_succ m), Nat.sub_self]
      rw [hlf, Nat.sub_self] at hsum
      omega
    · rw [if_neg hlf, Nat.min_eq_left (by omega)]
      have hpow : 2 ^ (m - len f) = 2 * 2 ^ (m - (len f + 1)) := by
        rw [← pow_succ']
        congr 1
        omega
      omega
  · rw [filter_insert, filter_insert, hln, hlo]
    by_cases hlf : len f = m
    · rw [if_pos hlf, card_insert_of_notMem hft] at hle
      rw [if_pos hlf, if_pos (by omega), if_pos (by omega), card_insert_of_notMem hnt,
        card_insert_of_notMem hot]
      omega
    · rw [if_neg hlf] at hle
      rw [if_neg hlf]
      by_cases hlf' : len f + 1 = m
      · rw [if_pos (by omega), if_pos (by omega), card_insert_of_notMem hnt,
          card_insert_of_notMem hot]
        omega
      · rw [if_neg (by omega), if_neg (by omega)]
        exact hle
  · rw [filter_insert, filter_insert, hdn, hdo]
    by_cases hlf : len f = m
    · rw [if_pos hlf, if_pos hlf, if_pos hlf, card_insert_of_notMem hnr'',
        card_insert_of_notMem hor']
      omega
    · rw [if_neg hlf, if_neg hlf, if_neg hlf]
      omega
  · have hlf : len f ≠ m := fun hlf => by
      rw [if_pos hlf] at he
      omega
    rw [if_neg hlf] at he
    have hcost := h.cost he
    rw [sum_insert hf, hw] at hcost
    rw [sum_insert hn', sum_insert ho, hln, hlo, Nat.min_eq_left (by omega), ← hcost]
    ring

/-- The nodes above a cut are those above it when two sons are merged, and the sons. -/
theorem erase_region {t : Finset Nat} {a b f root : Nat} (ha : a < f) (hb : b < f) (hf : f ≤ root) :
    (insert a (insert b t) ∪ Ico f root).erase root =
      insert a (insert b ((insert f t ∪ Ico (f + 1) root).erase root)) := by
  ext x
  simp only [mem_erase, mem_union, mem_insert, mem_Ico]
  constructor
  · rintro ⟨hx, (rfl | rfl | hx') | hx'⟩
    · exact .inl rfl
    · exact .inr (.inl rfl)
    · exact .inr (.inr ⟨hx, .inl (.inr hx')⟩)
    · by_cases hxs : x = f
      · exact .inr (.inr ⟨hx, .inl (.inl hxs)⟩)
      · exact .inr (.inr ⟨hx, .inr (by omega)⟩)
  · rintro (rfl | rfl | ⟨hx, (rfl | hx') | hx'⟩)
    · exact ⟨by omega, .inl (.inl rfl)⟩
    · exact ⟨by omega, .inl (.inr (.inl rfl))⟩
    · exact ⟨hx, .inr (by omega)⟩
    · exact ⟨hx, .inl (.inr (.inr hx'))⟩
    · exact ⟨hx, .inr (by omega)⟩

theorem notMem_region {t : Finset Nat} {x f root : Nat} (hx : x < f) (hxt : x ∉ t) :
    x ∉ (insert f t ∪ Ico (f + 1) root).erase root := by
  intro hmem
  simp only [mem_erase, mem_union, mem_insert, mem_Ico] at hmem
  rcases hmem.2 with (rfl | hmem) | hmem
  · omega
  · exact hxt hmem
  · omega

/-- What `k` merges lead to: the nodes taken and created keep their weights, every node comes before
its dad, and the merges are greedy. -/
structure MergeState.Merged (s r : MergeState) (k root : Nat) : Prop where
  node : r.node = root + 1
  dl : ∀ x, x ∉ s.nodes → x < s.node → r.dl x = s.dl x
  freq : ∀ x < s.node, r.freq x = s.freq x
  dads : ∀ x ∈ (s.nodes ∪ Ico s.node root).erase root,
    x < r.dl x ∧ s.node ≤ r.dl x ∧ r.dl x ≤ root
  greedy : ∀ w, (∀ x ≠ root, w x = r.freq x) → (w root = (s.items.map pqFreq).sum ∨ k = 0) →
    ∃ c, Greedy w s.nodes c ∧ ∀ len m, 1 ≤ m → len root = 0 →
      (∀ x ∈ (s.nodes ∪ Ico s.node root).erase root, len x = min (len (r.dl x) + 1) m) →
      ∃ e, CutSum w r.dl len m s.nodes ((s.nodes ∪ Ico s.node root).erase root) c e

/-- No merge: the one entry is the root. -/
theorem MergeState.Inv.merged {s : MergeState} (h : s.Inv 0) {root : Nat} (hroot : root + 1 = s.node) :
    s.Merged s 0 root := by
  obtain ⟨e, he⟩ := List.length_eq_one_iff.mp h.length
  have hnode : pqNode e = root := by
    have hlast := h.last rfl e (by rw [he]; exact List.mem_singleton_self e)
    omega
  have hnodes : s.nodes = {root} := by
    rw [MergeState.nodes, he, List.map_singleton, List.toFinset_cons, List.toFinset_nil,
      insert_empty_eq, hnode]
  have hempty : (s.nodes ∪ Ico s.node root).erase root = ∅ := by
    rw [hnodes, Ico_eq_empty (by omega), union_empty, erase_singleton]
  refine ⟨hroot.symm, fun _ _ _ => rfl, fun _ _ => rfl, ?_, fun w _ _ => ?_⟩
  · rw [hempty]
    exact fun x hx => absurd hx (notMem_empty x)
  · rw [hempty, hnodes]
    refine ⟨0, .single root, fun len m _ hlen _ => ⟨0, ?_, Nat.zero_le _, rfl, fun _ => ?_⟩⟩
    · rw [sum_singleton, hlen, Nat.sub_zero, Nat.add_zero]
    · rw [sum_singleton, hlen, Nat.mul_zero]

namespace MergeState.Takes
variable {s r : MergeState} {k root en em : Nat} {leaves internals : List Nat} {w : Nat → Nat}

theorem node_step (ht : s.Takes en em leaves internals) : s.step.node = s.node + 1 := by rw [ht.step]

/-- The nodes that are left are older than the new one, and are not the two that are taken. -/
theorem apart (ht : s.Takes en em leaves internals) (h : s.Inv k) :
    (∀ x ∈ ((leaves ++ internals).map pqNode).toFinset, x < s.node) ∧
      pqNode en ∉ ((leaves ++ internals).map pqNode).toFinset ∧
      pqNode em ∉ ((leaves ++ internals).map pqNode).toFinset := by
  obtain ⟨-, hn, ho, -⟩ := ht.distinct h
  simp only [List.mem_toFinset]
  refine ⟨fun x hx => ?_, hn, ho⟩
  obtain ⟨e, he, rfl⟩ := List.mem_map.mp hx
  exact h.node_lt e (ht.rest_mem he)

section After
variable (ht : s.Takes en em leaves internals) (h : s.Inv (k + 1)) (i : s.step.Merged r k root)
include ht h i

theorem dl_step {x : Nat} (hx : x < s.node)
    (hrest : x ∉ ((leaves ++ internals).map pqNode).toFinset) : r.dl x = s.step.dl x := by
  have hroom := h.room
  refine i.dl x ?_ (by rw [ht.node_step]; omega)
  rw [ht.nodes_step (by omega), mem_insert]
  exact fun hor => hor.elim (fun he => by omega) hrest

/-- The new node is the dad of the two that are taken. -/
theorem dl_sons : r.dl (pqNode en) = s.node ∧ r.dl (pqNode em) = s.node := by
  obtain ⟨hne, -, -, -⟩ := ht.distinct h
  obtain ⟨-, hn, ho⟩ := ht.apart h
  constructor
  · rw [ht.dl_step h i (h.node_lt en ht.en_mem) hn, ht.step]
    exact Function.update_self ..
  · rw [ht.dl_step h i (h.node_lt em ht.em_mem) ho, ht.step]
    simp only
    rw [Function.update_of_ne hne.symm, Function.update_self]

omit h in
theorem freq_keeps {x : Nat} (hx : x < s.node) : r.freq x = s.freq x := by
  rw [i.freq x (by rw [ht.node_step]; omega), ht.step]
  exact Function.update_of_ne (by omega) _ _

section Weights
variable (hroot : root + 1 = s.node + (k + 1)) (hw : ∀ x ≠ root, w x = r.freq x)
  (hw0 : w root = (s.items.map pqFreq).sum)
include hroot hw

theorem weight_old {e : Nat} (he : e ∈ s.items) : w (pqNode e) = pqFreq e := by
  have hlt := h.node_lt e he
  rw [hw _ (by omega), ht.freq_keeps i hlt, h.freq_eq e he]

include hw0

theorem weight_dad : w s.node = w (pqNode en) + w (pqNode em) := by
  have hlen := ht.perm.length_eq
  rw [List.length_cons, List.length_cons, h.length] at hlen
  rw [ht.weight_old h i hroot hw ht.en_mem, ht.weight_old h i hroot hw ht.em_mem]
  rcases Nat.eq_zero_or_pos k with rfl | hk
  · have hnil : leaves ++ internals = [] := List.eq_nil_of_length_eq_zero (by omega)
    rw [show s.node = root by omega, hw0, ht.sum_eq, hnil]
    rfl
  · rw [hw _ (by omega), i.freq _ (by rw [ht.node_step]; omega), ht.step]
    simp only
    rw [Function.update_self]
    exact (ht.exact h).resolve_right (by omega)

omit i hroot hw in
theorem weight_root : w root = (s.step.items.map pqFreq).sum ∨ k = 0 := by
  have hroom := h.room
  rcases Nat.eq_zero_or_pos k with hk | hk
  · exact .inr hk
  · left
    rw [hw0, ht.sum_eq, ht.items_step]
    generalize leaves ++ internals = rest
    rw [List.map_append, List.sum_append, List.map_singleton, List.sum_singleton,
      pqFreq_pack _ (by omega), (ht.exact h).resolve_right (by omega)]
    omega

/-- The two least weights are merged. -/
theorem greedy {c : Nat} (hc : Greedy w s.step.nodes c) :
    Greedy w s.nodes (w (pqNode en) + w (pqNode em) + c) := by
  have hroom := h.room
  obtain ⟨hne, -, -, -⟩ := ht.distinct h
  obtain ⟨hlt, hn, ho⟩ := ht.apart h
  have hen := h.node_lt en ht.en_mem
  have hem := h.node_lt em ht.em_mem
  have hold := fun {e} he => ht.weight_old h i hroot hw (e := e) he
  rw [ht.nodes_step (by omega)] at hc
  rw [ht.nodes_eq]
  refine Greedy.merge (f := s.node) (mem_insert_self _ _)
    (mem_insert_of_mem (mem_insert_self _ _)) hne ?_ ?_ ?_ (ht.weight_dad h i hroot hw hw0) ?_
  · rw [hold ht.en_mem, hold ht.em_mem]
    exact pqFreq_mono ht.le
  · intro x hx hxa
    rw [mem_insert, mem_insert] at hx
    rcases hx with hx | hx | hx
    · exact absurd hx hxa
    · rw [hx]
    · rw [List.mem_toFinset] at hx
      obtain ⟨e, he, rfl⟩ := List.mem_map.mp hx
      rw [hold ht.em_mem, hold (ht.rest_mem he)]
      exact pqFreq_mono (ht.least e he)
  · rw [mem_insert, mem_insert]
    exact fun hor => hor.elim (fun he => by omega) fun hor =>
      hor.elim (fun he => by omega) fun hmem => (hlt _ hmem).false
  · rw [erase_insert (by
      rw [mem_insert]
      exact fun hor => hor.elim hne hn), erase_insert ho]
    exact hc

end Weights
end After

/-- A merge, and the others behind it. -/
theorem merged (ht : s.Takes en em leaves internals) (h : s.Inv (k + 1))
    (hroot : root + 1 = s.node + (k + 1)) (i : s.step.Merged r k root) : s.Merged r (k + 1) root := by
  have hroom := h.room
  obtain ⟨hne, -, -, -⟩ := ht.distinct h
  obtain ⟨hlt, hn, ho⟩ := ht.apart h
  obtain ⟨hdn, hdo⟩ := ht.dl_sons h i
  have hen := h.node_lt en ht.en_mem
  have hem := h.node_lt em ht.em_mem
  have hnodes := ht.nodes_eq
  have hnodes' := ht.nodes_step (show s.node < 2 ^ 10 by omega)
  have hregion := @erase_region ((leaves ++ internals).map pqNode).toFinset _ _ _ root hen hem (by omega)
  rw [← hnodes, ← hnodes', ← ht.node_step] at hregion
  refine ⟨i.node, fun x hx hlt' => ?_, fun x => ht.freq_keeps i, fun x hx => ?_, fun w hw hw0 => ?_⟩
  · rw [hnodes, mem_insert, mem_insert, not_or, not_or] at hx
    rw [ht.dl_step h i hlt' hx.2.2, ht.step]
    simp only
    rw [Function.update_of_ne hx.1, Function.update_of_ne hx.2.1]
  · have hnode := ht.node_step
    rw [hregion] at hx
    rcases mem_insert.mp hx with rfl | hx
    · rw [hdn]
      omega
    · rcases mem_insert.mp hx with rfl | hx
      · rw [hdo]
        omega
      · have hdad := i.dads x hx
        omega
  · have hw0 := hw0.resolve_right (Nat.succ_ne_zero k)
    obtain ⟨c, hc, hcut⟩ := i.greedy w hw (ht.weight_root h hw0)
    refine ⟨_, ht.greedy h i hroot hw hw0 hc, fun len m hm hlr hlens => ?_⟩
    rw [hregion] at hlens ⊢
    obtain ⟨e, he⟩ := hcut len m hm hlr fun x hx =>
      hlens x (mem_insert_of_mem (mem_insert_of_mem hx))
    have hlf : len s.node ≤ m := by
      by_cases hsr : s.node = root
      · rw [hsr, hlr]
        exact Nat.zero_le _
      · have hmem : s.node ∈ s.step.nodes := hnodes' ▸ mem_insert_self _ _
        rw [hlens s.node (mem_insert_of_mem (mem_insert_of_mem (mem_erase.mpr ⟨hsr,
          mem_union_left _ hmem⟩)))]
        exact Nat.min_le_right _ _
    have hnr := @notMem_region _ _ _ root hen hn
    have hor := @notMem_region _ _ _ root hem ho
    have hln := hlens _ (mem_insert_self _ _)
    have hlo := hlens _ (mem_insert_of_mem (mem_insert_self _ _))
    rw [← hnodes', ← ht.node_step] at hnr hor
    rw [hdn] at hln
    rw [hdo] at hlo
    generalize (s.step.nodes ∪ Ico s.step.node root).erase root = region at *
    rw [hnodes'] at he
    rw [hnodes]
    exact ⟨_, he.split (fun hmem => (hlt _ hmem).false) hne hn ho hnr hor hdn hdo hlf hln hlo
      (ht.weight_dad h i hroot hw hw0)⟩

end MergeState.Takes

/-- All merges. -/
theorem MergeState.run_spec {k : Nat} {s : MergeState} (h : s.Inv k) {root : Nat}
    (hroot : root + 1 = s.node + k) : s.Merged (MergeState.run k s) k root := by
  induction k generalizing s with
  | zero => exact h.merged hroot
  | succ k ih =>
    obtain ⟨en, em, leaves, internals, ht⟩ := h.takes
    exact ht.merged h hroot (ih (ht.inv h) (by rw [ht.node_step]; omega))

end ZlibNg
