import ZlibNg.Trees.Cost

/-! The values that `opt_len` and `static_len` take on the way through `build_tree`. -/
namespace ZlibNg

open Finset

/-- The counters after each code that is forced. -/
def TreeScan.forceTrace (desc : StaticTreeDesc) (s : TreeScan) : List (Int × Int) :=
  if s.leaves.length < 2 then
    ((s.forceOne desc).optLen, (s.forceOne desc).staticLen) ::
      TreeScan.forceTrace desc (s.forceOne desc)
  else []
termination_by 2 - s.leaves.length
decreasing_by
  simp only [TreeScan.forceOne, List.length_append, List.length_singleton]
  omega

/-- The counters after each leaf. -/
def leafTrace (desc : StaticTreeDesc) (freq : Nat → Nat) : List Nat → BitlenState → List (Int × Int)
  | [], _ => []
  | e :: es, s => ((s.leaf desc freq e).optLen, (s.leaf desc freq e).staticLen) ::
      leafTrace desc freq es (s.leaf desc freq e)

/-- `opt_len` after the addition and after the subtraction for each length that changes. -/
def recomputeStepTrace (freq : Nat → Nat) (bits : Nat) : List Nat → (Nat → Nat) × Int → List Int
  | [], _ => []
  | e :: es, s =>
    (if s.1 (pqNode e) ≠ bits then
      [s.2 + (bits * freq (pqNode e) : Nat), (recomputeStep freq bits s e).2] else []) ++
      recomputeStepTrace freq bits es (recomputeStep freq bits s e)

def recomputeTrace (freq blCount : Nat → Nat) : Nat → List Nat → (Nat → Nat) × Int → List Int
  | 0, _, _ => []
  | bits + 1, sorted, s =>
    recomputeStepTrace freq (bits + 1) (sorted.take (blCount (bits + 1))) s ++
      recomputeTrace freq blCount bits (sorted.drop (blCount (bits + 1)))
        ((sorted.take (blCount (bits + 1))).foldl (recomputeStep freq (bits + 1)) s)

/-- The counters on the way through `gen_bitlen`. -/
def genBitlenTrace (desc : StaticTreeDesc) (sorted : List Nat) (root : Nat) (freq dl : Nat → Nat)
    (optLen staticLen : Int) : List (Int × Int) :=
  let r := bitlenNodes desc.elems desc.maxLength (root - desc.elems) (Function.update dl root 0, 0)
  let s₀ : BitlenState :=
    { dl := r.1, overflow := r.2, blCount := fun _ => 0, optLen := optLen, staticLen := staticLen }
  let s := sorted.foldl (BitlenState.leaf desc freq) s₀
  leafTrace desc freq sorted s₀ ++
    if s.overflow = 0 then []
    else ((repairLoop desc.maxLength s.overflow s.blCount).map fun blCount =>
      (recomputeTrace freq blCount desc.maxLength sorted (s.dl, s.optLen)).map
        fun v => (v, s.staticLen)).getD []

/-- The counters on the way through `build_tree`. -/
def buildTreeTrace (desc : StaticTreeDesc) (freq dl : Nat → Nat) (optLen staticLen : Int) :
    List (Int × Int) :=
  let start := (List.range desc.elems).foldl TreeScan.step
    { leaves := [], countLo := fun _ => 0, countHi := fun _ => 0, maxCode := -1, freq := freq,
      dl := dl, optLen := optLen, staticLen := staticLen }
  let scan := start.force desc
  let merged := MergeState.run (scan.leaves.length - 1)
    { leaves := scan.sorted, internals := [], node := desc.elems, freq := scan.freq, dl := scan.dl }
  start.forceTrace desc ++
    genBitlenTrace desc scan.sorted (merged.node - 1) merged.freq merged.dl scan.optLen scan.staticLen

/-- Bounds on the lengths and the extra bits of a tree. -/
structure StaticTreeDesc.Small (desc : StaticTreeDesc) : Prop where
  maxLength : desc.maxLength ≤ 15
  xbits : ∀ n, desc.xbits n ≤ 13
  staticLen : ∀ n, desc.staticLen n ≤ 15

theorem getD_le {xs : List Nat} {b : Nat} (h : ∀ x ∈ xs, x ≤ b) (n : Nat) : xs.getD n 0 ≤ b := by
  rw [List.getD_eq_getElem?_getD]
  rcases hn : xs[n]? with _ | x
  · exact Nat.zero_le b
  · exact h x (List.mem_of_getElem? hn)

theorem TreeKind.small (kind : TreeKind) : kind.desc.Small := by
  have hx : ∀ x ∈ kind.desc.extraBits, x ≤ 13 := by cases kind <;> decide
  have hst : ∀ x ∈ kind.desc.staticTree.getD [], x ≤ 15 := by cases kind <;> decide +kernel
  refine ⟨by cases kind <;> decide, fun n => ?_, getD_le hst⟩
  unfold StaticTreeDesc.xbits
  split
  · exact getD_le hx _
  · exact Nat.zero_le _

section Leaves
variable {desc : StaticTreeDesc} {f : Nat → Nat} (hsmall : desc.Small)
include hsmall

/-- A leaf adds at most 28 bits for each of its occurrences. -/
theorem leaf_grow (s : BitlenState) (e : Nat) :
    (s.optLen ≤ (s.leaf desc f e).optLen ∧
      (s.leaf desc f e).optLen ≤ s.optLen + 28 * f (pqNode e)) ∧
    (s.staticLen ≤ (s.leaf desc f e).staticLen ∧
      (s.leaf desc f e).staticLen ≤ s.staticLen + 28 * f (pqNode e)) := by
  have hgrow : ∀ a b : Nat, a + b ≤ 28 → ∀ v : Int, v ≤ v + (f (pqNode e) : Int) * ((a : Int) + b) ∧
      v + (f (pqNode e) : Int) * ((a : Int) + b) ≤ v + 28 * f (pqNode e) := by
    intro a b hab v
    have hle := Nat.mul_le_mul_left (f (pqNode e)) hab
    have hcast : (f (pqNode e) : Int) * ((a : Int) + b) = (f (pqNode e) * (a + b) : Nat) := by
      push_cast
      rfl
    rw [hcast]
    omega
  have hx := hsmall.xbits (pqNode e)
  have hst := hsmall.staticLen (pqNode e)
  have hmax := hsmall.maxLength
  unfold StaticTreeDesc.xbits at hx
  simp only [BitlenState.leaf, bitlenStep_eq, Function.update_self]
  refine ⟨hgrow _ _ ?_ _, ?_⟩
  · omega
  · split
    · exact hgrow _ _ (by omega) _
    · omega

theorem leafTrace_bounds (xs : List Nat) (s : BitlenState) : ∀ c ∈ leafTrace desc f xs s,
    (s.optLen ≤ c.1 ∧ c.1 ≤ s.optLen + 28 * ((xs.map pqNode).map fun n => (f n : Int)).sum) ∧
    (s.staticLen ≤ c.2 ∧
      c.2 ≤ s.staticLen + 28 * ((xs.map pqNode).map fun n => (f n : Int)).sum) := by
  induction xs generalizing s with
  | nil => exact fun c hc => absurd hc List.not_mem_nil
  | cons e xs ih =>
    intro c hc
    obtain ⟨h1, h2⟩ := leaf_grow hsmall (f := f) s e
    have hnn : 0 ≤ ((xs.map pqNode).map fun n => (f n : Int)).sum := List.sum_nonneg fun v hv => by
      obtain ⟨n, -, rfl⟩ := List.mem_map.mp hv
      exact Int.natCast_nonneg _
    rw [List.map_cons, List.map_cons, List.sum_cons]
    rcases List.mem_cons.mp hc with rfl | hc
    · dsimp only
      omega
    · have := ih (s.leaf desc f e) c hc
      omega

theorem leafFold_static (xs : List Nat) (s : BitlenState) :
    s.staticLen ≤ (xs.foldl (BitlenState.leaf desc f) s).staticLen ∧
      (xs.foldl (BitlenState.leaf desc f) s).staticLen ≤
        s.staticLen + 28 * ((xs.map pqNode).map fun n => (f n : Int)).sum := by
  induction xs generalizing s with
  | nil => exact ⟨le_refl _, by simp⟩
  | cons e xs ih =>
    have h1 := (leaf_grow hsmall (f := f) s e).2
    have h2 := ih (s.leaf desc f e)
    rw [List.map_cons, List.map_cons, List.sum_cons, List.foldl_cons]
    omega

/-- The lengths of the leaves are at most the maximum. -/
theorem leaf_dl_le (xs : List Nat) (s : BitlenState) {x : Nat} (hx : s.dl x ≤ 15 ∨ x ∈ xs.map pqNode) :
    (xs.foldl (BitlenState.leaf desc f) s).dl x ≤ 15 := by
  induction xs generalizing s with
  | nil => exact hx.resolve_right List.not_mem_nil
  | cons e xs ih =>
    have hmax := hsmall.maxLength
    refine ih _ ?_
    have hdl : (s.leaf desc f e).dl = Function.update s.dl (pqNode e)
        (min (s.dl (s.dl (pqNode e)) + 1) desc.maxLength) := by
      simp only [BitlenState.leaf, bitlenStep_eq]
    rw [hdl]
    by_cases hxe : x = pqNode e
    · left
      rw [hxe, Function.update_self]
      omega
    · rw [Function.update_of_ne hxe]
      rw [List.map_cons, List.mem_cons] at hx
      exact hx.imp_right fun h => h.resolve_left hxe

end Leaves

/-- The lengths are short, and account for what `opt_len` is above a constant. -/
structure Account (f : Nat → Nat) (F : Finset Nat) (base : Int) (s : (Nat → Nat) × Int) : Prop where
  cost : s.2 - ∑ x ∈ F, (f x : Int) * s.1 x = base
  le : ∀ x ∈ F, s.1 x ≤ 15

section Recompute
variable {f : Nat → Nat} {F : Finset Nat} {base : Int}

theorem Account.bounds {s : (Nat → Nat) × Int} (h : Account f F base s) :
    base ≤ s.2 ∧ s.2 ≤ base + 15 * ∑ x ∈ F, (f x : Int) := by
  have hcost := h.cost
  have hnn : 0 ≤ ∑ x ∈ F, (f x : Int) * s.1 x := sum_nonneg fun x _ => by positivity
  have hle : ∑ x ∈ F, (f x : Int) * s.1 x ≤ 15 * ∑ x ∈ F, (f x : Int) := by
    rw [mul_sum]
    refine sum_le_sum fun x hx => ?_
    have := Nat.mul_le_mul_left (f x) (h.le x hx)
    calc (f x : Int) * s.1 x = (f x * s.1 x : Nat) := by push_cast; rfl
      _ ≤ (f x * 15 : Nat) := Int.ofNat_le.mpr this
      _ = 15 * (f x : Int) := by push_cast; ring
  omega

theorem Account.step {s : (Nat → Nat) × Int} (h : Account f F base s) {bits e : Nat}
    (hbits : bits ≤ 15) (he : pqNode e ∈ F) : Account f F base (recomputeStep f bits s e) := by
  refine ⟨(recomputeStep_cost s he).trans h.cost, fun x hx => ?_⟩
  unfold recomputeStep
  dsimp only
  split
  · dsimp only
    by_cases hxe : x = pqNode e
    · rw [hxe, Function.update_self]
      exact hbits
    · rw [Function.update_of_ne hxe]
      exact h.le x hx
  · exact h.le x hx

theorem recomputeStepTrace_bounds {bits : Nat} (hbits : bits ≤ 15) (xs : List Nat)
    (s : (Nat → Nat) × Int) (h : Account f F base s) (hF : ∀ e ∈ xs, pqNode e ∈ F) :
    Account f F base (xs.foldl (recomputeStep f bits) s) ∧
      ∀ v ∈ recomputeStepTrace f bits xs s, base ≤ v ∧ v ≤ base + 30 * ∑ x ∈ F, (f x : Int) := by
  induction xs generalizing s with
  | nil => exact ⟨h, fun v hv => absurd hv List.not_mem_nil⟩
  | cons e xs ih =>
    have he := hF e List.mem_cons_self
    have hstep := h.step hbits he
    obtain ⟨h1, h2⟩ := ih _ hstep fun e' he' => hF e' (List.mem_cons_of_mem _ he')
    refine ⟨h1, fun v hv => ?_⟩
    rcases List.mem_append.mp hv with hv | hv
    · have hnn : 0 ≤ ∑ x ∈ F, (f x : Int) := sum_nonneg fun x _ => Int.natCast_nonneg _
      have hb := h.bounds
      have hb' := hstep.bounds
      split at hv
      · rcases List.mem_cons.mp hv with rfl | hv
        · have hone : (f (pqNode e) : Int) ≤ ∑ x ∈ F, (f x : Int) :=
            single_le_sum (f := fun x => (f x : Int)) (fun x _ => Int.natCast_nonneg _) he
          have hmul := Nat.mul_le_mul_right (f (pqNode e)) hbits
          omega
        · obtain rfl := List.mem_singleton.mp hv
          omega
      · exact absurd hv List.not_mem_nil
    · exact h2 v hv

theorem recomputeTrace_bounds {c : Nat → Nat} {bits : Nat} (hbits : bits ≤ 15) (sorted : List Nat)
    (s : (Nat → Nat) × Int) (h : Account f F base s) (hF : ∀ e ∈ sorted, pqNode e ∈ F) :
    ∀ v ∈ recomputeTrace f c bits sorted s, base ≤ v ∧ v ≤ base + 30 * ∑ x ∈ F, (f x : Int) := by
  induction bits generalizing sorted s with
  | zero => exact fun v hv => absurd hv List.not_mem_nil
  | succ bits ih =>
    intro v hv
    obtain ⟨h1, h2⟩ := recomputeStepTrace_bounds hbits (sorted.take (c (bits + 1))) s h
      fun e he => hF e (List.mem_of_mem_take he)
    rcases List.mem_append.mp hv with hv | hv
    · exact h2 v hv
    · exact ih (by omega) _ _ h1 (fun e he => hF e (List.mem_of_mem_drop he)) v hv

end Recompute

/-- The counters only grow in `gen_bitlen`, and not by more than 43 bits for each occurrence. -/
theorem genBitlenTrace_bounds {desc : StaticTreeDesc} (hsmall : desc.Small) {f dl : Nat → Nat}
    {sorted : List Nat} (hnodup : (sorted.map pqNode).Nodup) (root : Nat) (optLen staticLen : Int) :
    ∀ c ∈ genBitlenTrace desc sorted root f dl optLen staticLen,
      (optLen ≤ c.1 ∧ c.1 ≤ optLen + 43 * ((sorted.map pqNode).map fun n => (f n : Int)).sum) ∧
      (staticLen ≤ c.2 ∧
        c.2 ≤ staticLen + 43 * ((sorted.map pqNode).map fun n => (f n : Int)).sum) := by
  intro c hc
  unfold genBitlenTrace at hc
  dsimp only at hc
  generalize hs₀ : BitlenState.mk _ _ _ optLen staticLen = s₀ at hc
  have hopt : s₀.optLen = optLen := by rw [← hs₀]
  have hstatic : s₀.staticLen = staticLen := by rw [← hs₀]
  have hnn : 0 ≤ ((sorted.map pqNode).map fun n => (f n : Int)).sum := List.sum_nonneg fun v hv => by
    obtain ⟨n, -, rfl⟩ := List.mem_map.mp hv
    exact Int.natCast_nonneg _
  rcases List.mem_append.mp hc with hc | hc
  · have := leafTrace_bounds hsmall (f := f) sorted s₀ c hc
    omega
  split at hc
  · exact absurd hc List.not_mem_nil
  -- the repair keeps the extra bits, and lengths of at most fifteen
  rcases hr : repairLoop desc.maxLength _ _ with _ | blCount
  · rw [hr] at hc
    exact absurd hc List.not_mem_nil
  rw [hr, Option.map_some, Option.getD_some] at hc
  obtain ⟨v, hv, rfl⟩ := List.mem_map.mp hc
  have hfold := leafFold_static hsmall (f := f) sorted s₀
  have hcost := (@leaf_cost desc f sorted s₀ hnodup).1
  have hshort : ∀ x ∈ (sorted.map pqNode).toFinset,
      (sorted.foldl (BitlenState.leaf desc f) s₀).dl x ≤ 15 := fun x hx =>
    leaf_dl_le hsmall sorted s₀ (.inr (List.mem_toFinset.mp hx))
  generalize sorted.foldl (BitlenState.leaf desc f) s₀ = s₁ at *
  have hacc : Account f (sorted.map pqNode).toFinset
      (s₀.optLen + ∑ n ∈ (sorted.map pqNode).toFinset, (f n : Int) * desc.xbits n)
      (s₁.dl, s₁.optLen) := by
    refine ⟨?_, hshort⟩
    rw [hcost, ← List.sum_toFinset _ hnodup]
    simp only [mul_add, sum_add_distrib]
    ring
  have hv' := recomputeTrace_bounds hsmall.maxLength sorted _ hacc
    (fun e he => List.mem_toFinset.mpr (List.mem_map_of_mem he)) v hv
  have hx0 : 0 ≤ ∑ n ∈ (sorted.map pqNode).toFinset, (f n : Int) * desc.xbits n :=
    sum_nonneg fun n _ => by positivity
  have hx : ∑ n ∈ (sorted.map pqNode).toFinset, (f n : Int) * desc.xbits n ≤
      13 * ∑ n ∈ (sorted.map pqNode).toFinset, (f n : Int) := by
    rw [mul_sum]
    refine sum_le_sum fun n _ => ?_
    have hle := hsmall.xbits n
    calc (f n : Int) * desc.xbits n ≤ (f n : Int) * 13 := by
          exact mul_le_mul_of_nonneg_left (by exact_mod_cast hle) (Int.natCast_nonneg _)
      _ = 13 * (f n : Int) := mul_comm _ _
  rw [← List.sum_toFinset _ hnodup] at hfold hnn ⊢
  dsimp only
  omega

/-- What forced codes take from the counters. -/
theorem force_bounds {desc : StaticTreeDesc} {m : Nat} (hm : ∀ n ≤ 2, desc.staticLen n ≤ m)
    (s : TreeScan) : ∀ c ∈ ((s.force desc).optLen, (s.force desc).staticLen) :: s.forceTrace desc,
      (s.optLen - (2 - s.leaves.length : Nat) ≤ c.1 ∧ c.1 ≤ s.optLen) ∧
      (s.staticLen - ((2 - s.leaves.length) * m : Nat) ≤ c.2 ∧ c.2 ≤ s.staticLen) := by
  induction s using TreeScan.force.induct desc with
  | case1 s hlt ih =>
    rw [TreeScan.force, if_pos hlt, TreeScan.forceTrace, if_pos hlt]
    have hone : (s.forceOne desc).leaves.length = s.leaves.length + 1 := by
      simp [TreeScan.forceOne]
    have hopt : (s.forceOne desc).optLen = s.optLen - 1 := rfl
    have hstatic : (s.forceOne desc).staticLen ≤ s.staticLen ∧
        s.staticLen - m ≤ (s.forceOne desc).staticLen := by
      have hnode : (if s.maxCode < 2 then (s.maxCode + 1).toNat else 0) ≤ 2 := by
        split <;> omega
      have hle := hm _ hnode
      unfold TreeScan.forceOne
      dsimp only
      omega
    have hmul : (2 - s.leaves.length) * m = (2 - (s.leaves.length + 1)) * m + m := by
      rw [← Nat.succ_mul]
      congr 1
      omega
    rw [hone, hopt] at ih
    intro c hc
    rcases List.mem_cons.mp hc with rfl | hc
    · have := ih _ List.mem_cons_self
      omega
    rcases List.mem_cons.mp hc with rfl | hc
    · dsimp only
      omega
    · have := ih c (List.mem_cons_of_mem _ hc)
      omega
  | case2 s hge =>
    rw [TreeScan.force, if_neg hge, TreeScan.forceTrace, if_neg hge]
    intro c hc
    obtain rfl := List.mem_singleton.mp hc
    dsimp only
    omega

/-- The counters on the way through `build_tree`, by the symbols that have a frequency. -/
theorem buildTreeTrace_bounds (kind : TreeKind) (freq dl : Nat → Nat) (optLen staticLen : Int)
    (htotal : ((List.range kind.desc.elems).map freq).sum ≤ 65535) {m k : Nat}
    (hm : ∀ n ≤ 2, kind.desc.staticLen n ≤ m) (hm' : m ≤ 15)
    (hk : 2 - ((List.range kind.desc.elems).filter fun n => freq n ≠ 0).length ≤ k) (hk' : k ≤ 2) :
    ∀ c ∈ buildTreeTrace kind.desc freq dl optLen staticLen,
      (optLen - k ≤ c.1 ∧ c.1 ≤ optLen + 43 * 65537) ∧
      (staticLen - (k * m : Nat) ≤ c.2 ∧ c.2 ≤ staticLen + 43 * 65537) := by
  obtain ⟨hel, hroom, hcodes, hmax⟩ := kind.bounds
  have hroom' : kind.desc.elems ≤ 2 ^ 10 := by omega
  have hfreq := freq_lt_of_sum htotal
  obtain ⟨hsorted, hlength, -, -⟩ := @scan_sorted kind.desc freq dl optLen staticLen hel hroom'
    (by omega)
  have hcharged := (@scan_charged kind.desc freq dl optLen staticLen hel hroom' hfreq).opt
  obtain ⟨hleaves, -⟩ := scan_spec dl optLen staticLen hroom' hfreq
  obtain ⟨hopt, hstatic⟩ := scan_foldl_lens (List.range kind.desc.elems)
    { leaves := [], countLo := fun _ => 0, countHi := fun _ => 0, maxCode := -1, freq := freq,
      dl := dl, optLen := optLen, staticLen := staticLen }
  unfold buildTreeTrace
  dsimp only at hsorted hlength hcharged hopt hstatic ⊢
  generalize (List.range kind.desc.elems).foldl TreeScan.step _ = start at *
  have hforce := force_bounds hm start
  rw [hleaves, leavesOf, List.length_map, hopt, hstatic] at hforce
  have hmul := Nat.mul_le_mul_right m hk
  have hmul' : k * m ≤ 30 := (Nat.mul_le_mul hk' hm').trans (by decide)
  generalize (2 - ((List.range kind.desc.elems).filter fun n => freq n ≠ 0).length) * m = km at *
  generalize start.force kind.desc = scan at *
  have hmerged := hsorted.merged_freq hlength hroom
  generalize MergeState.run (scan.leaves.length - 1) _ = r at *
  have hscan := hforce _ List.mem_cons_self
  dsimp only at hscan
  have hsum : ((scan.sorted.map pqNode).map fun n => (r.freq n : Int)).sum ≤ 65537 := by
    have hs := hsorted.sum_eq hmerged fun _ => 1
    have hT : ∑ n ∈ range kind.desc.elems, (freq n : Int) * 1 ≤ 65535 := by
      simp only [mul_one]
      exact_mod_cast htotal
    simp only [mul_one] at hs hT hcharged
    rw [hs]
    omega
  intro c hc
  rcases List.mem_append.mp hc with hc | hc
  · have := hforce c (List.mem_cons_of_mem _ hc)
    omega
  · have := @genBitlenTrace_bounds kind.desc kind.small r.freq r.dl scan.sorted hsorted.nodup
      (r.node - 1) scan.optLen scan.staticLen c hc
    omega

end ZlibNg
