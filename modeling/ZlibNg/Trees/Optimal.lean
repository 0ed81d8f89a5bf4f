import Mathlib.Algebra.BigOperators.Group.Finset.Basic
import Mathlib.Algebra.Order.BigOperators.Group.Finset
import Mathlib.Algebra.BigOperators.Ring.Finset
import Mathlib.Data.Finset.Max
import Mathlib.InformationTheory.Coding.KraftMcMillan
import Mathlib.Tactic

/-! Merging the two least weights, again and again, costs no more than any prefix code. -/
namespace ZlibNg
open Finset

variable {ι : Type*}

/-- Merging the two least weights of `s` until one is left costs `c`: the weights of all merges.
Each merge is a new element. -/
inductive Greedy [DecidableEq ι] (w : ι → ℕ) : Finset ι → ℕ → Prop
  | single (i : ι) : Greedy w {i} 0
  | merge {s : Finset ι} {a b f : ι} {c : ℕ} (ha : a ∈ s) (hb : b ∈ s) (hab : a ≠ b)
      (hle : w a ≤ w b) (hmin : ∀ i ∈ s, i ≠ a → w b ≤ w i) (hf : f ∉ s) (hw : w f = w a + w b)
      (h : Greedy w (insert f ((s.erase a).erase b)) c) : Greedy w s (w a + w b + c)

/-- The lengths `l` of `s` are at most `m`, and satisfy the inequality of Kraft. -/
structure KraftLe (m : ℕ) (s : Finset ι) (l : ι → ℕ) : Prop where
  le : ∀ i ∈ s, l i ≤ m
  sum_le : ∑ i ∈ s, 2 ^ (m - l i) ≤ 2 ^ m

section Exchange
variable [DecidableEq ι] {m : ℕ} {s : Finset ι} {l w : ι → ℕ}

theorem sum_two {f : ι → ℕ} {a b : ι} (ha : a ∈ s) (hb : b ∈ s) (hab : a ≠ b) :
    ∑ i ∈ s, f i = f a + (f b + ∑ i ∈ (s.erase a).erase b, f i) := by
  rw [add_sum_erase _ f (mem_erase.mpr ⟨hab.symm, hb⟩), add_sum_erase _ f ha]

theorem swap_mem {a b i : ι} (ha : a ∈ s) (hb : b ∈ s) (hi : i ∈ s) : Equiv.swap a b i ∈ s := by
  by_cases h1 : i = a
  · rw [h1, Equiv.swap_apply_left]
    exact hb
  · by_cases h2 : i = b
    · rw [h2, Equiv.swap_apply_right]
      exact ha
    · rwa [Equiv.swap_apply_of_ne_of_ne h1 h2]

/-- Exchanging two lengths keeps the inequality. -/
theorem KraftLe.swap (h : KraftLe m s l) {a b : ι} (ha : a ∈ s) (hb : b ∈ s) :
    KraftLe m s (l ∘ Equiv.swap a b) where
  le i hi := h.le _ (swap_mem ha hb hi)
  sum_le := by
    refine le_of_eq_of_le (Equiv.Perm.sum_comp (Equiv.swap a b) s (fun i => 2 ^ (m - l i)) ?_)
      h.sum_le
    intro i hi
    by_contra hs
    refine hi (Equiv.swap_apply_of_ne_of_ne ?_ ?_)
    · rintro rfl
      exact hs ha
    · rintro rfl
      exact hs hb

/-- Giving the longer length to the smaller weight costs no more. -/
theorem cost_swap_le {a b : ι} (ha : a ∈ s) (hb : b ∈ s) (hw : w a ≤ w b) (hl : l a ≤ l b) :
    ∑ i ∈ s, w i * (l ∘ Equiv.swap a b) i ≤ ∑ i ∈ s, w i * l i := by
  by_cases hab : a = b
  · subst hab
    simp
  · rw [sum_two ha hb hab, sum_two ha hb hab]
    have hrest : ∑ i ∈ (s.erase a).erase b, w i * (l ∘ Equiv.swap a b) i =
        ∑ i ∈ (s.erase a).erase b, w i * l i := by
      refine sum_congr rfl fun i hi => ?_
      obtain ⟨h2, hi⟩ := mem_erase.mp hi
      rw [Function.comp_apply, Equiv.swap_apply_of_ne_of_ne (ne_of_mem_erase hi) h2]
    simp only [Function.comp_apply, Equiv.swap_apply_left, Equiv.swap_apply_right] at hrest ⊢
    rw [hrest]
    obtain ⟨d, hd⟩ := Nat.exists_eq_add_of_le hw
    obtain ⟨e, he⟩ := Nat.exists_eq_add_of_le hl
    rw [hd, he]
    nlinarith [Nat.zero_le (d * e)]

/-- The longest length can be had by two elements: a single one has room to be shorter. -/
theorem KraftLe.balance (h : KraftLe m s l) (hcard : 1 < s.card) :
    ∃ l' p q, KraftLe m s l' ∧ (∀ i ∈ s, l' i ≤ l i) ∧ p ∈ s ∧ q ∈ s ∧ p ≠ q ∧ l' p = l' q ∧
      (∀ i ∈ s, l' i ≤ l' p) ∧ 1 ≤ l' p := by
  obtain ⟨p, hp, hpmax⟩ := exists_max_image s l (card_pos.mp (by omega))
  have hne : (s.erase p).Nonempty := card_pos.mp (by rw [card_erase_of_mem hp]; omega)
  obtain ⟨q, hq, hqmax⟩ := exists_max_image (s.erase p) l hne
  have hqs := mem_of_mem_erase hq
  have hqp := ne_of_mem_erase hq
  have hle := hpmax q hqs
  have hqm := h.le q hqs
  have hsame : ∀ i ∈ s.erase p, Function.update l p (l q) i = l i := fun i hi =>
    Function.update_of_ne (ne_of_mem_erase hi) _ _
  -- the others take a multiple of the share of `q`, and not everything
  have hdvd : 2 ^ (m - l q) ∣ ∑ i ∈ s.erase p, 2 ^ (m - l i) :=
    dvd_sum fun i hi => pow_dvd_pow 2 (Nat.sub_le_sub_left (hqmax i hi) m)
  obtain ⟨k, hk⟩ := hdvd
  have hsum := h.sum_le
  rw [← add_sum_erase s _ hp, hk] at hsum
  have hpow : 2 ^ m = 2 ^ (m - l q) * 2 ^ l q := by
    rw [← pow_add, Nat.sub_add_cancel hqm]
  have hpos : 0 < 2 ^ (m - l p) := Nat.two_pow_pos _
  have hlt : k < 2 ^ l q := by
    refine lt_of_mul_lt_mul_left (a := 2 ^ (m - l q)) ?_ (Nat.zero_le _)
    omega
  have hk1 : 1 ≤ k := by
    by_contra hk0
    have h0 : k = 0 := by omega
    have hq0 : 0 < ∑ i ∈ s.erase p, 2 ^ (m - l i) :=
      sum_pos (fun i _ => Nat.two_pow_pos _) hne
    rw [hk, h0] at hq0
    omega
  have hl1 : 1 ≤ l q := by
    by_contra hl0
    rw [show l q = 0 by omega, pow_zero] at hlt
    omega
  refine ⟨Function.update l p (l q), p, q, ⟨fun i hi => ?_, ?_⟩, fun i hi => ?_, hp, hqs,
    hqp.symm, ?_, fun i hi => ?_, ?_⟩
  · by_cases hip : i = p
    · rw [hip, Function.update_self]
      exact hqm
    · rw [Function.update_of_ne hip]
      exact h.le i hi
  · rw [← add_sum_erase s _ hp, Function.update_self,
      sum_congr rfl fun i hi => by rw [hsame i hi], hk, hpow]
    calc 2 ^ (m - l q) + 2 ^ (m - l q) * k = 2 ^ (m - l q) * (k + 1) := by ring
      _ ≤ 2 ^ (m - l q) * 2 ^ l q := Nat.mul_le_mul_left _ hlt
  · by_cases hip : i = p
    · rw [hip, Function.update_self]
      exact hle
    · rw [Function.update_of_ne hip]
  · rw [Function.update_self, Function.update_of_ne hqp]
  · rw [Function.update_self]
    by_cases hip : i = p
    · rw [hip, Function.update_self]
    · rw [Function.update_of_ne hip]
      exact hqmax i (mem_erase.mpr ⟨hip, hi⟩)
  · rw [Function.update_self]
    exact hl1

/-- The two least weights may have the longest length. -/
theorem KraftLe.deepest (h : KraftLe m s l) {a b : ι} (ha : a ∈ s) (hb : b ∈ s) (hab : a ≠ b)
    (hle : w a ≤ w b) (hmin : ∀ i ∈ s, i ≠ a → w b ≤ w i) :
    ∃ l', KraftLe m s l' ∧ ∑ i ∈ s, w i * l' i ≤ ∑ i ∈ s, w i * l i ∧ l' a = l' b ∧ 1 ≤ l' a := by
  have hcard : 1 < s.card := one_lt_card.mpr ⟨a, ha, b, hb, hab⟩
  obtain ⟨l₀, p, q, h₀, hl₀, hp, hq, hpq, heq, hmax, h1⟩ := h.balance hcard
  have hcost₀ : ∑ i ∈ s, w i * l₀ i ≤ ∑ i ∈ s, w i * l i :=
    sum_le_sum fun i hi => Nat.mul_le_mul_left _ (hl₀ i hi)
  have hap : w a ≤ w p := by
    by_cases hpa : p = a
    · rw [hpa]
    · exact hle.trans (hmin p hp hpa)
  have hcost₁ := cost_swap_le (l := l₀) ha hp hap (hmax a ha)
  have h₁ := h₀.swap ha hp
  have hmax₁ : ∀ i ∈ s, (l₀ ∘ Equiv.swap a p) i ≤ l₀ p := fun i hi => hmax _ (swap_mem ha hp hi)
  have ha₁ : (l₀ ∘ Equiv.swap a p) a = l₀ p := by
    rw [Function.comp_apply, Equiv.swap_apply_left]
  obtain ⟨r, hr, hra, hrl⟩ : ∃ r ∈ s, r ≠ a ∧ (l₀ ∘ Equiv.swap a p) r = l₀ p := by
    by_cases hqa : q = a
    · refine ⟨p, hp, fun hpa => hpq (hpa.trans hqa.symm), ?_⟩
      rw [Function.comp_apply, Equiv.swap_apply_right, ← hqa, heq]
    · refine ⟨q, hq, hqa, ?_⟩
      rw [Function.comp_apply, Equiv.swap_apply_of_ne_of_ne hqa hpq.symm, heq]
  generalize l₀ ∘ Equiv.swap a p = l₁ at *
  have hcost₂ := cost_swap_le (l := l₁) hb hr (hmin r hr hra) ((hmax₁ b hb).trans hrl.ge)
  have ha₂ : (l₁ ∘ Equiv.swap b r) a = l₀ p := by
    rw [Function.comp_apply, Equiv.swap_apply_of_ne_of_ne hab hra.symm, ha₁]
  have hb₂ : (l₁ ∘ Equiv.swap b r) b = l₀ p := by
    rw [Function.comp_apply, Equiv.swap_apply_left, hrl]
  exact ⟨_, h₁.swap hb hr, hcost₂.trans (hcost₁.trans hcost₀), ha₂.trans hb₂.symm, ha₂ ▸ h1⟩

/-- No lengths that satisfy the inequality cost less than the merges. -/
theorem Greedy.le_cost {c : ℕ} (hg : Greedy w s c) (h : KraftLe m s l) :
    c ≤ ∑ i ∈ s, w i * l i := by
  induction hg generalizing l with
  | single i => exact Nat.zero_le _
  | @merge s a b f c ha hb hab hle hmin hf hw _ ih =>
    obtain ⟨l', hk, hcost, heq, h1⟩ := h.deepest ha hb hab hle hmin
    have hfe : f ∉ (s.erase a).erase b := fun hmem => hf (mem_of_mem_erase (mem_of_mem_erase hmem))
    have hsame : ∀ i ∈ (s.erase a).erase b, Function.update l' f (l' a - 1) i = l' i := by
      intro i hi
      refine Function.update_of_ne ?_ _ _
      rintro rfl
      exact hfe hi
    have ham := hk.le a ha
    have hmerged : KraftLe m (insert f ((s.erase a).erase b)) (Function.update l' f (l' a - 1)) := by
      refine ⟨fun i hi => ?_, ?_⟩
      · rcases mem_insert.mp hi with rfl | hi
        · rw [Function.update_self]
          omega
        · rw [hsame i hi]
          exact hk.le i (mem_of_mem_erase (mem_of_mem_erase hi))
      · rw [sum_insert hfe, Function.update_self, sum_congr rfl fun i hi => by rw [hsame i hi]]
        have hsum := hk.sum_le
        rw [sum_two ha hb hab, ← heq] at hsum
        have hpow : 2 ^ (m - (l' a - 1)) = 2 * 2 ^ (m - l' a) := by
          rw [← pow_succ']
          congr 1
          omega
        omega
    have hrest := ih hmerged
    rw [sum_insert hfe, Function.update_self, hw,
      sum_congr rfl fun i hi => by rw [hsame i hi]] at hrest
    rw [sum_two ha hb hab, ← heq] at hcost
    refine le_trans ?_ hcost
    have hmul : (w a + w b) * l' a = (w a + w b) * (l' a - 1) + (w a + w b) := by
      conv_lhs => rw [← Nat.sub_add_cancel h1]
      ring
    have hsplit : w a * l' a + w b * l' a = (w a + w b) * l' a := by ring
    omega

end Exchange

/-- No code word is the beginning of another. -/
def PrefixFree (s : Finset ι) (code : ι → List Bool) : Prop :=
  ∀ a ∈ s, ∀ b ∈ s, a ≠ b → ¬ code a <+: code b

theorem PrefixFree.uniquelyDecodable {s : Finset ι} {code : ι → List Bool}
    (h : PrefixFree s code) (hcard : 1 < s.card) :
    InformationTheory.UniquelyDecodable ((s.image code : Finset (List Bool)) : Set (List Bool)) := by
  have hne : ∀ a ∈ s, code a ≠ [] := by
    intro a ha h0
    obtain ⟨b, hb, hab⟩ := exists_mem_ne hcard a
    exact h a ha b hb hab.symm (h0 ▸ List.nil_prefix)
  have hword : ∀ u ∈ ((s.image code : Finset (List Bool)) : Set (List Bool)), u ≠ [] := by
    intro u hu
    obtain ⟨a, ha, rfl⟩ := mem_image.mp (mem_coe.mp hu)
    exact hne a ha
  have hpre : ∀ u ∈ ((s.image code : Finset (List Bool)) : Set (List Bool)),
      ∀ v ∈ ((s.image code : Finset (List Bool)) : Set (List Bool)), u <+: v → u = v := by
    intro u hu v hv huv
    obtain ⟨a, ha, rfl⟩ := mem_image.mp (mem_coe.mp hu)
    obtain ⟨b, hb, rfl⟩ := mem_image.mp (mem_coe.mp hv)
    by_contra hne
    exact h a ha b hb (fun hab => hne (hab ▸ rfl)) huv
  intro xs
  induction xs with
  | nil =>
    intro ys _ hys heq
    cases ys with
    | nil => rfl
    | cons y ys =>
      rw [List.flatten_nil, List.flatten_cons] at heq
      exact absurd (List.append_eq_nil_iff.mp heq.symm).1 (hword y (hys y List.mem_cons_self))
  | cons x xs ih =>
    intro ys hxs hys heq
    have hx := hxs x List.mem_cons_self
    cases ys with
    | nil =>
      rw [List.flatten_nil, List.flatten_cons] at heq
      exact absurd (List.append_eq_nil_iff.mp heq).1 (hword x hx)
    | cons y ys =>
      have hy := hys y List.mem_cons_self
      rw [List.flatten_cons, List.flatten_cons] at heq
      have hxy : x = y := by
        rcases List.prefix_or_prefix_of_prefix (List.prefix_append x xs.flatten)
          (heq ▸ List.prefix_append y ys.flatten) with hp | hp
        · exact hpre x hx y hy hp
        · exact (hpre y hy x hx hp).symm
      subst hxy
      rw [ih ys (fun w hw => hxs w (List.mem_cons_of_mem _ hw))
        (fun w hw => hys w (List.mem_cons_of_mem _ hw)) (List.append_cancel_left heq)]

/-- The lengths of a prefix code satisfy the inequality. -/
theorem PrefixFree.kraftLe {s : Finset ι} {code : ι → List Bool} (h : PrefixFree s code)
    (hcard : 1 < s.card) {m : ℕ} (hm : ∀ i ∈ s, (code i).length ≤ m) :
    KraftLe m s fun i => (code i).length := by
  refine ⟨hm, ?_⟩
  have hinj : Set.InjOn code s := by
    intro a ha b hb hab
    by_contra hne
    exact h a ha b hb hne (hab ▸ List.prefix_rfl)
  have hkraft := InformationTheory.kraft_mcmillan_inequality (h.uniquelyDecodable hcard)
  rw [sum_image hinj, Fintype.card_bool] at hkraft
  have hscale : ((∑ i ∈ s, 2 ^ (m - (code i).length) : ℕ) : ℝ) =
      2 ^ m * ∑ i ∈ s, (1 / ((2 : ℕ) : ℝ)) ^ (code i).length := by
    push_cast
    rw [mul_sum]
    refine sum_congr rfl fun i hi => ?_
    rw [pow_sub₀ _ two_ne_zero (hm i hi), one_div, inv_pow]
  have hle : ((∑ i ∈ s, 2 ^ (m - (code i).length) : ℕ) : ℝ) ≤ ((2 ^ m : ℕ) : ℝ) := by
    rw [hscale]
    push_cast
    exact mul_le_of_le_one_right (by positivity) hkraft
  exact_mod_cast hle

/-- No prefix code costs less than the merges. -/
theorem Greedy.le_prefixFree [DecidableEq ι] {w : ι → ℕ} {s : Finset ι} {c : ℕ} (hg : Greedy w s c)
    (hcard : 1 < s.card) {code : ι → List Bool} (h : PrefixFree s code) :
    c ≤ ∑ i ∈ s, w i * (code i).length :=
  hg.le_cost (h.kraftLe hcard fun _ hi => le_sup (f := fun i => (code i).length) hi)

end ZlibNg
