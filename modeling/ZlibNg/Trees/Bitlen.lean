import ZlibNg.Trees.Merge

/-! The bit lengths of a Huffman tree: lengths along the dads, and the repair of lengths that are
too long. -/
namespace ZlibNg
open Finset

section Lengths
variable {m : Nat}

theorem bitlenStep_eq (s : (Nat → Nat) × Nat) (n : Nat) : bitlenStep m s n =
    (Function.update s.1 n (min (s.1 (s.1 n) + 1) m), s.2 + if m ≤ s.1 (s.1 n) then 1 else 0) := by
  unfold bitlenStep
  by_cases h : m ≤ s.1 (s.1 n)
  · simp only [if_pos h, if_pos (Nat.lt_succ_of_le h), Nat.min_eq_right (Nat.le_succ_of_le h)]
  · rw [if_neg h]
    simp only [if_neg (show ¬ m < s.1 (s.1 n) + 1 by omega),
      Nat.min_eq_left (show s.1 (s.1 n) + 1 ≤ m by omega), Nat.add_zero]

/-- The internal nodes get their lengths after their dads. -/
theorem bitlenNodes_spec {elems : Nat} {dad : Nat → Nat} (k : Nat) (d : Nat → Nat) (o : Nat)
    (hd : ∀ x < elems + k, d x = dad x) (hdad : ∀ x, elems ≤ x → x < elems + k → x < dad x) :
    let r := bitlenNodes elems m k (d, o)
    (∀ x, x < elems ∨ elems + k ≤ x → r.1 x = d x) ∧
      (∀ x, elems ≤ x → x < elems + k → r.1 x = min (r.1 (dad x) + 1) m) ∧
      r.2 = o + ((Ico elems (elems + k)).filter fun x => m ≤ r.1 (dad x)).card := by
  induction k generalizing d o with
  | zero =>
    refine ⟨fun _ _ => rfl, fun x h1 h2 => by omega, ?_⟩
    rw [Nat.add_zero, Ico_self, filter_empty, card_empty]
    rfl
  | succ k ih =>
    have hn := hd (elems + k) (by omega)
    have hlt := hdad (elems + k) (by omega) (by omega)
    have hstep : bitlenNodes elems m (k + 1) (d, o) = bitlenNodes elems m k
        (Function.update d (elems + k) (min (d (dad (elems + k)) + 1) m),
          o + if m ≤ d (dad (elems + k)) then 1 else 0) := by
      rw [bitlenNodes, bitlenStep_eq]
      simp only [hn]
    rw [hstep]
    obtain ⟨h1, h2, h3⟩ := ih (Function.update d (elems + k) (min (d (dad (elems + k)) + 1) m))
      (o + if m ≤ d (dad (elems + k)) then 1 else 0)
      (fun x hx => by rw [Function.update_of_ne (by omega)]; exact hd x (by omega))
      (fun x hx hx' => hdad x hx (by omega))
    generalize bitlenNodes elems m k _ = r at *
    have hdadlen : r.1 (dad (elems + k)) = d (dad (elems + k)) := by
      rw [h1 _ (.inr (by omega)), Function.update_of_ne (by omega)]
    refine ⟨fun x hx => ?_, fun x hx hx' => ?_, ?_⟩
    · rw [h1 x (by omega), Function.update_of_ne (by omega)]
    · rcases (show x < elems + k ∨ x = elems + k by omega) with hx' | rfl
      · exact h2 x hx hx'
      · rw [h1 _ (.inr le_rfl), Function.update_self, hdadlen]
    · rw [h3, ← Nat.add_assoc elems, ← insert_Ico_right_eq_Ico_add_one (by omega), filter_insert,
        hdadlen]
      split
      · rw [card_insert_of_notMem (by simp)]
        omega
      · rfl

/-- The leaves get theirs, and are counted. -/
theorem leaf_foldl {desc : StaticTreeDesc} {freq dad : Nat → Nat} (sorted : List Nat)
    (s : BitlenState) (hnodup : (sorted.map pqNode).Nodup)
    (hdl : ∀ e ∈ sorted, s.dl (pqNode e) = dad (pqNode e))
    (hdad : ∀ e ∈ sorted, ∀ e' ∈ sorted, dad (pqNode e) ≠ pqNode e') :
    let r := sorted.foldl (BitlenState.leaf desc freq) s
    (∀ x, x ∉ sorted.map pqNode → r.dl x = s.dl x) ∧
      (∀ e ∈ sorted, r.dl (pqNode e) = min (s.dl (dad (pqNode e)) + 1) desc.maxLength) ∧
      r.overflow = s.overflow +
        sorted.countP (fun e => desc.maxLength ≤ s.dl (dad (pqNode e))) ∧
      ∀ l, r.blCount l = s.blCount l + sorted.countP fun e => r.dl (pqNode e) = l := by
  induction sorted generalizing s with
  | nil => exact ⟨fun _ _ => rfl, fun e he => absurd he List.not_mem_nil, rfl, fun _ => rfl⟩
  | cons e sorted ih =>
    rw [List.map_cons, List.nodup_cons] at hnodup
    have he := hdl e List.mem_cons_self
    have hleaf : (s.leaf desc freq e).dl = Function.update s.dl (pqNode e)
          (min (s.dl (dad (pqNode e)) + 1) desc.maxLength) ∧
        (s.leaf desc freq e).overflow = s.overflow +
          (if desc.maxLength ≤ s.dl (dad (pqNode e)) then 1 else 0) ∧
        (s.leaf desc freq e).blCount = Function.update s.blCount
          (min (s.dl (dad (pqNode e)) + 1) desc.maxLength)
          (s.blCount (min (s.dl (dad (pqNode e)) + 1) desc.maxLength) + 1) := by
      simp only [BitlenState.leaf, bitlenStep_eq, he, Function.update_self, and_self]
    have hother : ∀ e' ∈ sorted, pqNode e' ≠ pqNode e := fun e' he' heq =>
      hnodup.1 (heq ▸ List.mem_map_of_mem he')
    have hdads : ∀ e' ∈ e :: sorted, (s.leaf desc freq e).dl (dad (pqNode e')) =
        s.dl (dad (pqNode e')) := by
      intro e' he'
      rw [hleaf.1, Function.update_of_ne (hdad e' he' e List.mem_cons_self)]
    obtain ⟨h1, h2, h3, h4⟩ := ih (s.leaf desc freq e) hnodup.2
      (fun e' he' => by
        rw [hleaf.1, Function.update_of_ne (hother e' he')]
        exact hdl e' (List.mem_cons_of_mem _ he'))
      (fun e' he' e'' he'' => hdad e' (List.mem_cons_of_mem _ he') e'' (List.mem_cons_of_mem _ he''))
    rw [List.foldl_cons]
    generalize sorted.foldl (BitlenState.leaf desc freq) (s.leaf desc freq e) = r at *
    have hre : r.dl (pqNode e) = min (s.dl (dad (pqNode e)) + 1) desc.maxLength := by
      rw [h1 _ hnodup.1, hleaf.1, Function.update_self]
    refine ⟨fun x hx => ?_, fun e' he' => ?_, ?_, fun l => ?_⟩
    · rw [List.map_cons, List.mem_cons, not_or] at hx
      rw [h1 x hx.2, hleaf.1, Function.update_of_ne hx.1]
    · rcases List.mem_cons.mp he' with rfl | he''
      · exact hre
      · rw [h2 e' he'', hdads e' he']
    · rw [h3, hleaf.2.1, List.countP_cons, List.countP_congr fun e' he' => by
        rw [hdads e' (List.mem_cons_of_mem _ he')]]
      simp only [decide_eq_true_eq]
      omega
    · rw [h4 l, hleaf.2.2, List.countP_cons, hre]
      simp only [decide_eq_true_eq]
      by_cases hl : min (s.dl (dad (pqNode e)) + 1) desc.maxLength = l
      · rw [hl, Function.update_self, if_pos rfl]
        omega
      · rw [Function.update_of_ne (Ne.symm hl), if_neg hl]
        omega

end Lengths

/-- The Kraft sum of the counts of lengths up to `m`, in units of `2 ^ -m`. -/
def countKraft (m : Nat) (c : Nat → Nat) : Nat := ∑ l ∈ range (m + 1), c l * 2 ^ (m - l)

/-- How many codes there are. -/
def countCodes (m : Nat) (c : Nat → Nat) : Nat := ∑ l ∈ range (m + 1), c l

section Repair
variable {m : Nat} {c : Nat → Nat}

theorem sum_update {s : Finset Nat} {b : Nat} (hb : b ∈ s) (v : Nat) (g : Nat → Nat) :
    ∑ l ∈ s, Function.update c b v l * g l + c b * g b = ∑ l ∈ s, c l * g l + v * g b := by
  rw [← add_sum_erase s _ hb, ← add_sum_erase s (fun l => c l * g l) hb, Function.update_self,
    sum_congr rfl fun l hl => by rw [Function.update_of_ne (ne_of_mem_erase hl)]]
  omega

theorem countKraft_update {b : Nat} (hb : b ≤ m) (v : Nat) :
    countKraft m (Function.update c b v) + c b * 2 ^ (m - b) =
      countKraft m c + v * 2 ^ (m - b) :=
  sum_update (mem_range.mpr (Nat.lt_succ_of_le hb)) v fun l => 2 ^ (m - l)

theorem countCodes_update {b : Nat} (hb : b ≤ m) (v : Nat) :
    countCodes m (Function.update c b v) + c b = countCodes m c + v := by
  have h := sum_update (c := c) (mem_range.mpr (Nat.lt_succ_of_le hb)) v fun _ => 1
  simp only [Nat.mul_one] at h
  exact h

/-- The search ends at the longest shorter length with a code. -/
theorem nextShorter_spec {b l : Nat} (hl : l ≤ b) (hc : c l ≠ 0) :
    ∃ bits, nextShorter c b = some bits ∧ l ≤ bits ∧ bits ≤ b ∧ c bits ≠ 0 := by
  induction b with
  | zero =>
    obtain rfl : l = 0 := by omega
    exact ⟨0, if_neg hc, le_rfl, le_rfl, hc⟩
  | succ b ih =>
    rw [nextShorter]
    split
    · next h0 =>
      have hle : l ≤ b := by
        rcases Nat.lt_succ_iff_lt_or_eq.mp (Nat.lt_succ_of_le hl) with hlt | rfl
        · omega
        · exact absurd h0 hc
      obtain ⟨bits, h1, h2, h3, h4⟩ := ih hle
      exact ⟨bits, h1, h2, by omega, h4⟩
    · next h0 => exact ⟨b + 1, rfl, hl, le_rfl, h0⟩

/-- What the repair keeps: `e` codes too many, and at least as many of the longest length. -/
structure Excess (m : Nat) (c : Nat → Nat) (e : Nat) : Prop where
  zero : c 0 = 0
  kraft : countKraft m c = 2 ^ m + e
  le : e ≤ c m
  codes : countCodes m c ≤ 2 ^ m

/-- With codes to spare there is a shorter length. -/
theorem Excess.exists_shorter {e : Nat} (h : Excess m c (e + 1)) : ∃ l ≤ m - 1, 1 ≤ l ∧ c l ≠ 0 := by
  by_contra hno
  have hz : ∀ l, l < m → c l = 0 := by
    intro l hl
    by_contra h0
    rcases Nat.eq_zero_or_pos l with rfl | hpos
    · exact h0 h.zero
    · exact hno ⟨l, by omega, hpos, h0⟩
  have hk : countKraft m c = countCodes m c := by
    refine sum_congr rfl fun l hl => ?_
    rcases Nat.lt_succ_iff_lt_or_eq.mp (mem_range.mp hl) with hlt | rfl
    · rw [hz l hlt, Nat.zero_mul]
    · rw [Nat.sub_self, pow_zero, Nat.mul_one]
  have := h.kraft
  have := h.codes
  omega

/-- One step of the repair removes one code too many. -/
theorem repairStep_spec {e : Nat} (h : Excess m c (e + 1)) :
    ∃ c', repairStep m c = some c' ∧ Excess m c' e ∧ countCodes m c' = countCodes m c := by
  obtain ⟨l, hl, hpos, hcl⟩ := h.exists_shorter
  obtain ⟨bits, hbits, h1, h2, h3⟩ := nextShorter_spec hl hcl
  have hle := h.le
  obtain ⟨v, hv⟩ := Nat.exists_eq_succ_of_ne_zero h3
  have hm1 : bits + 1 ≤ m := by omega
  -- the three updates one by one
  set c₁ := Function.update c bits (c bits - 1) with hc₁
  set c₂ := Function.update c₁ (bits + 1) (c₁ (bits + 1) + 2) with hc₂
  have hd₁ : decrement c bits = some c₁ := if_neg h3
  have hcm : c m ≤ c₂ m := by
    rw [hc₂]
    by_cases hbm : m = bits + 1
    · rw [hbm, Function.update_self, hc₁, Function.update_of_ne (by omega)]
      omega
    · rw [Function.update_of_ne hbm, hc₁, Function.update_of_ne (by omega)]
  have hd₂ : decrement c₂ m = some (Function.update c₂ m (c₂ m - 1)) := if_neg (by omega)
  refine ⟨Function.update c₂ m (c₂ m - 1), ?_, ⟨?_, ?_, ?_, ?_⟩, ?_⟩
  · simp only [repairStep, hbits, Option.bind_eq_bind, Option.bind_some, hd₁]
    exact hd₂
  · rw [Function.update_of_ne (by omega), hc₂, Function.update_of_ne (by omega), hc₁,
      Function.update_of_ne (by omega)]
    exact h.zero
  · have k1 := countKraft_update (c := c) (show bits ≤ m by omega) (c bits - 1)
    have k2 := countKraft_update (c := c₁) hm1 (c₁ (bits + 1) + 2)
    have k3 := countKraft_update (c := c₂) (le_refl m) (c₂ m - 1)
    have hpow : 2 ^ (m - bits) = 2 * 2 ^ (m - (bits + 1)) := by
      rw [← pow_succ']
      congr 1
      omega
    rw [← hc₁, hv, Nat.succ_eq_add_one, Nat.add_sub_cancel, Nat.add_mul] at k1
    rw [← hc₂, Nat.add_mul] at k2
    rw [Nat.sub_self, pow_zero, Nat.mul_one, Nat.mul_one] at k3
    have hk := h.kraft
    omega
  · rw [Function.update_self]
    omega
  · have k1 := countCodes_update (c := c) (show bits ≤ m by omega) (c bits - 1)
    have k2 := countCodes_update (c := c₁) hm1 (c₁ (bits + 1) + 2)
    have k3 := countCodes_update (c := c₂) (le_refl m) (c₂ m - 1)
    rw [← hc₁] at k1
    rw [← hc₂] at k2
    have hk := h.codes
    omega
  · have k1 := countCodes_update (c := c) (show bits ≤ m by omega) (c bits - 1)
    have k2 := countCodes_update (c := c₁) hm1 (c₁ (bits + 1) + 2)
    have k3 := countCodes_update (c := c₂) (le_refl m) (c₂ m - 1)
    rw [← hc₁] at k1
    rw [← hc₂] at k2
    omega

/-- The repair ends with a complete code; no count goes negative on the way. -/
theorem repairLoop_spec {e : Nat} (h : Excess m c (e + 1)) :
    ∃ c', repairLoop m (2 * (e + 1)) c = some c' ∧ c' 0 = 0 ∧ countKraft m c' = 2 ^ m ∧
      countCodes m c' = countCodes m c := by
  induction e generalizing c with
  | zero =>
    obtain ⟨c', hc, he, hn⟩ := repairStep_spec h
    refine ⟨c', ?_, he.zero, he.kraft, hn⟩
    rw [repairLoop, hc, Option.bind_some, if_neg (by omega)]
  | succ e ih =>
    obtain ⟨c', hc, he, hn⟩ := repairStep_spec h
    obtain ⟨c'', hl, h0, hk, hn'⟩ := ih he
    refine ⟨c'', ?_, h0, hk, hn'.trans hn⟩
    rw [repairLoop, hc, Option.bind_some, if_pos (by omega),
      show 2 * (e + 1 + 1) - 2 = 2 * (e + 1) by omega, hl]

theorem recompute_foldl {freq : Nat → Nat} {bits : Nat} (xs : List Nat) (s : (Nat → Nat) × Int)
    (x : Nat) : (xs.foldl (recomputeStep freq bits) s).1 x =
      if x ∈ xs.map pqNode then bits else s.1 x := by
  induction xs generalizing s with
  | nil => rfl
  | cons e xs ih =>
    rw [List.foldl_cons, ih, List.map_cons]
    have hstep : (recomputeStep freq bits s e).1 x = if x = pqNode e then bits else s.1 x := by
      unfold recomputeStep
      by_cases hx : x = pqNode e
      · rw [if_pos hx]
        by_cases hb : s.1 (pqNode e) ≠ bits
        · simp only [if_pos hb]
          rw [hx, Function.update_self]
        · simp only [if_neg hb]
          rw [hx, not_not.mp hb]
      · rw [if_neg hx]
        by_cases hb : s.1 (pqNode e) ≠ bits
        · simp only [if_pos hb]
          rw [Function.update_of_ne hx]
        · simp only [if_neg hb]
    rw [hstep]
    by_cases hx : x ∈ xs.map pqNode
    · rw [if_pos hx, if_pos (List.mem_cons_of_mem _ hx)]
    · rw [if_neg hx]
      exact if_congr (by rw [List.mem_cons, or_iff_left hx]) rfl rfl

/-- The new lengths are those that are counted. -/
theorem recompute_spec {freq : Nat → Nat} (m : Nat) (b : Nat) (sorted : List Nat)
    (s : (Nat → Nat) × Int) (h0 : c 0 = 0) (hnodup : (sorted.map pqNode).Nodup)
    (hlen : sorted.length = ∑ l ∈ range (b + 1), c l) :
    let r := (recompute freq c b sorted s).1
    (∀ x, x ∉ sorted.map pqNode → r x = s.1 x) ∧
      (∀ x ∈ sorted.map pqNode, 1 ≤ r x ∧ r x ≤ b) ∧
      ((sorted.map pqNode).map fun x => 2 ^ (m - r x)).sum =
        ∑ l ∈ range (b + 1), c l * 2 ^ (m - l) := by
  induction b generalizing sorted s with
  | zero =>
    have hnil : sorted = [] := by
      rw [sum_range_one, h0] at hlen
      exact List.eq_nil_of_length_eq_zero hlen
    subst hnil
    refine ⟨fun _ _ => rfl, fun x hx => absurd hx List.not_mem_nil, ?_⟩
    rw [sum_range_one, h0, Nat.zero_mul]
    rfl
  | succ b ih =>
    rw [sum_range_succ] at hlen
    have hsplit := List.take_append_drop (c (b + 1)) sorted
    have hmap : sorted.map pqNode = (sorted.take (c (b + 1))).map pqNode ++
        (sorted.drop (c (b + 1))).map pqNode := by
      rw [← List.map_append, hsplit]
    have hnodup' := hnodup
    rw [hmap, List.nodup_append] at hnodup'
    obtain ⟨-, hnd, hdisj⟩ := hnodup'
    obtain ⟨h1, h2, h3⟩ := ih (sorted.drop (c (b + 1)))
      ((sorted.take (c (b + 1))).foldl (recomputeStep freq (b + 1)) s) hnd
      (by rw [List.length_drop]; omega)
    rw [recompute]
    generalize (recompute freq c b (sorted.drop (c (b + 1)))
      ((sorted.take (c (b + 1))).foldl (recomputeStep freq (b + 1)) s)).1 = r at *
    have htake : ∀ x ∈ (sorted.take (c (b + 1))).map pqNode, r x = b + 1 := by
      intro x hx
      rw [h1 x fun hx' => hdisj x hx x hx' rfl, recompute_foldl, if_pos hx]
    refine ⟨fun x hx => ?_, fun x hx => ?_, ?_⟩
    · rw [hmap, List.mem_append, not_or] at hx
      rw [h1 x hx.2, recompute_foldl, if_neg hx.1]
    · rw [hmap, List.mem_append] at hx
      rcases hx with hx | hx
      · rw [htake x hx]
        omega
      · have := h2 x hx
        omega
    · rw [hmap, List.map_append, List.sum_append, h3, sum_range_succ _ (b + 1),
        List.map_congr_left fun x hx => by rw [htake x hx], List.map_const', List.sum_replicate,
        List.length_map, List.length_take, Nat.min_eq_left (by omega), smul_eq_mul]
      omega

end Repair
end ZlibNg
