import ZlibNg.Inflate.Tree

/-! Code lengths and their canonical codes: where each length starts, in the sorted symbol
table and on the left-aligned code line of `2 ^ 16` points. -/
namespace ZlibNg

/-- First point of the code line that the codes of length `len` take. -/
def codeBase (count : Nat → Nat) : Nat → Nat
  | 0 => 0
  | 1 => 0
  | len + 2 => codeBase count (len + 1) + count (len + 1) * 2 ^ (16 - (len + 1))

section Counts
variable {c : Nat → Nat}

theorem offsets_succ {l : Nat} (h : 1 ≤ l) :
    offsets c (l + 1) = offsets c l + c l := by
  obtain ⟨k, rfl⟩ := Nat.exists_eq_add_of_le' h
  rfl

theorem codeBase_succ {l : Nat} (h : 1 ≤ l) :
    codeBase c (l + 1) = codeBase c l + c l * 2 ^ (16 - l) := by
  obtain ⟨k, rfl⟩ := Nat.exists_eq_add_of_le' h
  rfl

theorem offsets_mono {l m : Nat} (h : l ≤ m) : offsets c l ≤ offsets c m := by
  induction m, h using Nat.le_induction with
  | base => exact le_rfl
  | succ m _ ih =>
    rcases Nat.eq_zero_or_pos m with rfl | hm
    · simpa [offsets] using ih
    · rw [offsets_succ hm]; omega

theorem codeBase_mono {l m : Nat} (h : l ≤ m) : codeBase c l ≤ codeBase c m := by
  induction m, h using Nat.le_induction with
  | base => exact le_rfl
  | succ m _ ih =>
    rcases Nat.eq_zero_or_pos m with rfl | hm
    · simpa [codeBase] using ih
    · rw [codeBase_succ hm]; omega

/-- Codes no longer than `l` end on a multiple of the width of a code of length `l`. -/
theorem dvd_codeBase {l m : Nat} (hl : l ≤ 16) (h : m ≤ l + 1) :
    2 ^ (16 - l) ∣ codeBase c m := by
  induction m with
  | zero => simp [codeBase]
  | succ m ih =>
    rcases Nat.eq_zero_or_pos m with rfl | hm
    · simp [codeBase]
    · rw [codeBase_succ hm]
      exact Nat.dvd_add (ih (by omega))
        (Dvd.dvd.mul_left (Nat.pow_dvd_pow 2 (by omega)) _)

theorem codesLeft_codeBase {n left : Nat} (hn : n ≤ 15) (h : codesLeft c n = some left) :
    left * 2 ^ (16 - n) + codeBase c (n + 1) = 2 ^ 16 := by
  induction n generalizing left with
  | zero =>
    obtain rfl : 1 = left := by simpa [codesLeft] using h
    simp [codeBase]
  | succ n ih =>
    simp only [codesLeft, Option.bind_eq_some_iff] at h
    obtain ⟨prev, hp, h⟩ := h
    split at h
    · cases h
    · next hle =>
      obtain rfl : prev * 2 - c (n + 1) = left := by simpa using h
      have hprev := ih (by omega) hp
      obtain ⟨k, hk⟩ := Nat.exists_eq_add_of_le (Nat.not_lt.mp hle)
      rw [codeBase_succ (by omega), hk, Nat.add_sub_cancel_left]
      have hw : 2 ^ (16 - n) = 2 * 2 ^ (16 - (n + 1)) := by
        rw [← Nat.pow_succ']; congr 1; omega
      have hsum : prev * 2 ^ (16 - n) = (prev * 2) * 2 ^ (16 - (n + 1)) := by
        rw [hw]; ring
      rw [hsum, hk, Nat.add_mul] at hprev
      omega

/-- Where the `j`-th code of length `l` starts on the code line. -/
def codePoint (c : Nat → Nat) (l j : Nat) : Nat := codeBase c l + j * 2 ^ (16 - l)

theorem codePoint_succ (l j : Nat) :
    codePoint c l (j + 1) = codePoint c l j + 2 ^ (16 - l) := by
  rw [codePoint, codePoint, Nat.succ_mul, Nat.add_assoc]

theorem dvd_codePoint {l m j : Nat} (hl : l ≤ 16) (h : m ≤ l) :
    2 ^ (16 - l) ∣ codePoint c m j :=
  Nat.dvd_add (dvd_codeBase hl (by omega)) (Dvd.dvd.mul_left (Nat.pow_dvd_pow 2 (by omega)) _)

theorem codePoint_end {l j : Nat} (h1 : 1 ≤ l) (hj : j < c l) :
    codePoint c l j + 2 ^ (16 - l) ≤ codeBase c (l + 1) := by
  rw [← codePoint_succ, codeBase_succ h1]
  exact Nat.add_le_add_left (Nat.mul_le_mul_right _ hj) _

/-- Codes in canonical order take consecutive stretches of the code line. -/
theorem codePoint_before {l j l' j' : Nat} (h1 : 1 ≤ l) (hj : j < c l)
    (h : l < l' ∨ l = l' ∧ j < j') :
    codePoint c l j + 2 ^ (16 - l) ≤ codePoint c l' j' := by
  rcases h with h | ⟨rfl, h⟩
  · calc codePoint c l j + 2 ^ (16 - l) ≤ codeBase c (l + 1) := codePoint_end h1 hj
      _ ≤ codeBase c l' := codeBase_mono h
      _ ≤ codePoint c l' j' := Nat.le_add_right _ _
  · rw [← codePoint_succ]
    exact Nat.add_le_add_left (Nat.mul_le_mul_right _ h) _

/-- Every point below the end of a length belongs to a code. -/
theorem exists_codePoint {m p : Nat} (h : p < codeBase c (m + 1)) :
    ∃ l j, 1 ≤ l ∧ l ≤ m ∧ j < c l ∧ codePoint c l j ≤ p ∧
      p < codePoint c l j + 2 ^ (16 - l) := by
  induction m with
  | zero => simp [codeBase] at h
  | succ m ih =>
    by_cases hp : p < codeBase c (m + 1)
    · obtain ⟨l, j, h1, hm, rest⟩ := ih hp
      exact ⟨l, j, h1, by omega, rest⟩
    · obtain ⟨q, rfl⟩ := Nat.exists_eq_add_of_le (Nat.not_lt.mp hp)
      rw [codeBase_succ (l := m + 1) (by omega)] at h
      have hw : 0 < 2 ^ (16 - (m + 1)) := Nat.two_pow_pos _
      have hq : q / 2 ^ (16 - (m + 1)) < c (m + 1) := by
        rw [Nat.div_lt_iff_lt_mul hw]; omega
      have hdm := Nat.div_add_mod' q (2 ^ (16 - (m + 1)))
      have hmod := Nat.mod_lt q hw
      refine ⟨m + 1, _, by omega, le_rfl, hq, ?_, ?_⟩ <;> unfold codePoint <;> omega

/-- A used length bounds the length found by `maxLength`. -/
theorem le_maxLength {n l : Nat} (h1 : 1 ≤ l) (hn : l ≤ n) (hc : c l ≠ 0) :
    l ≤ maxLength c n := by
  induction n with
  | zero => omega
  | succ n ih =>
    unfold maxLength
    split
    · omega
    · next h0 =>
      rcases Nat.lt_or_ge n l with h | h
      · obtain rfl : l = n + 1 := by omega
        exact absurd hc h0
      · exact ih h

theorem maxLength_spec (n : Nat) (h : maxLength c n ≠ 0) :
    1 ≤ maxLength c n ∧ maxLength c n ≤ n ∧ c (maxLength c n) ≠ 0 := by
  induction n with
  | zero => exact absurd rfl h
  | succ n ih =>
    unfold maxLength at h ⊢
    split
    · next hc => exact ⟨by omega, le_rfl, hc⟩
    · next hc =>
      rw [if_neg hc] at h
      obtain ⟨h1, h2, h3⟩ := ih h
      exact ⟨h1, by omega, h3⟩

theorem minLength_spec (fuel min : Nat) {max : Nat} (hf : max ≤ fuel + min) (hm : min ≤ max)
    (hc : c max ≠ 0) :
    min ≤ minLength c max fuel min ∧ minLength c max fuel min ≤ max ∧
      c (minLength c max fuel min) ≠ 0 ∧
      ∀ l, min ≤ l → l < minLength c max fuel min → c l = 0 := by
  induction fuel generalizing min with
  | zero =>
    obtain rfl : min = max := by omega
    exact ⟨le_rfl, le_rfl, hc, fun l h h' => by simp only [minLength] at h'; omega⟩
  | succ fuel ih =>
    unfold minLength
    split
    · next h =>
      obtain ⟨h1, h2, h3, h4⟩ := ih (min + 1) (by omega) (by omega)
      refine ⟨by omega, h2, h3, fun l hl hl' => ?_⟩
      rcases Nat.eq_or_lt_of_le hl with rfl | hl
      · exact h.2
      · exact h4 l hl hl'
    · next h =>
      refine ⟨le_rfl, hm, ?_, fun l h h' => by omega⟩
      rcases Nat.eq_or_lt_of_le hm with rfl | hm
      · exact hc
      · exact fun h0 => h ⟨hm, h0⟩

end Counts

section Sorting
variable {lens : List Nat}

/-- How many earlier symbols have the same length. -/
def rankOf (lens : List Nat) (s : Nat) : Nat := (lens.take s).count (lens.getD s 0)

/-- Position of a symbol in the sorted table. -/
def posOf (lens : List Nat) (s : Nat) : Nat :=
  offsets (countLengths lens) (lens.getD s 0) + rankOf lens s

theorem take_succ_count (lens : List Nat) {n : Nat} (h : n < lens.length) (l : Nat) :
    (lens.take (n + 1)).count l =
      (lens.take n).count l + if lens.getD n 0 = l then 1 else 0 := by
  rw [List.take_succ_eq_append_getElem h, List.count_append,
    List.getD_eq_getElem _ _ h, List.count_singleton]
  simp

theorem rankOf_lt {s n : Nat} (hs : s < n) (hn : n ≤ lens.length) :
    rankOf lens s < (lens.take n).count (lens.getD s 0) := by
  have h := take_succ_count lens (show s < lens.length by omega) (lens.getD s 0)
  rw [if_pos rfl] at h
  have hsub : (lens.take (s + 1)).count (lens.getD s 0) ≤
      (lens.take n).count (lens.getD s 0) := by
    apply List.Sublist.count_le
    exact (List.take_prefix_take_left (by omega)).sublist
  unfold rankOf
  omega

theorem rankOf_lt_count {s : Nat} (hs : s < lens.length) :
    rankOf lens s < countLengths lens (lens.getD s 0) := by
  simpa [countLengths] using rankOf_lt hs le_rfl

theorem posOf_ne {s t : Nat} (hst : s < t) (ht : t < lens.length)
    (hs0 : lens.getD s 0 ≠ 0) (ht0 : lens.getD t 0 ≠ 0) : posOf lens s ≠ posOf lens t := by
  have hs := rankOf_lt_count (show s < lens.length by omega)
  have ht' := rankOf_lt_count ht
  unfold posOf
  rcases Nat.lt_trichotomy (lens.getD s 0) (lens.getD t 0) with h | h | h
  · have := offsets_mono (c := countLengths lens) (show lens.getD s 0 + 1 ≤ lens.getD t 0 from h)
    rw [offsets_succ (by omega)] at this
    omega
  · have := rankOf_lt hst ht.le
    rw [h] at this ⊢
    simp only [rankOf, h] at this ⊢
    omega
  · have := offsets_mono (c := countLengths lens) (show lens.getD t 0 + 1 ≤ lens.getD s 0 from h)
    rw [offsets_succ (by omega)] at this
    omega

theorem sort_foldl (n : Nat) (hn : n ≤ lens.length) :
    let s := (List.range n).foldl (sortStep lens) (offsets (countLengths lens), fun _ => 0)
    (∀ l, 1 ≤ l → s.1 l = offsets (countLengths lens) l + (lens.take n).count l) ∧
      ∀ t, t < n → lens.getD t 0 ≠ 0 → s.2 (posOf lens t) = t := by
  induction n with
  | zero => exact ⟨fun l _ => by simp, fun t h => absurd h (Nat.not_lt_zero t)⟩
  | succ n ih =>
    obtain ⟨ho, hw⟩ := ih (by omega)
    have hcount := take_succ_count lens (show n < lens.length by omega)
    simp only [List.range_succ, List.foldl_append, List.foldl_cons, List.foldl_nil]
    set s := (List.range n).foldl (sortStep lens) (offsets (countLengths lens), fun _ => 0)
    unfold sortStep
    by_cases h0 : lens.getD n 0 = 0
    · simp only [h0, ne_eq, not_true_eq_false, ↓reduceIte]
      refine ⟨fun l hl => ?_, fun t ht ht0 => ?_⟩
      · rw [ho l hl, hcount l, h0, if_neg (by omega), Nat.add_zero]
      · rcases Nat.lt_succ_iff_lt_or_eq.mp ht with ht | rfl
        · exact hw t ht ht0
        · exact absurd h0 ht0
    · simp only [ne_eq, h0, not_false_eq_true, ↓reduceIte]
      have hpos : s.1 (lens.getD n 0) = posOf lens n := by
        rw [ho _ (by omega)]; rfl
      refine ⟨fun l hl => ?_, fun t ht ht0 => ?_⟩
      · rw [hcount l]
        by_cases hl' : lens.getD n 0 = l
        · subst hl'
          rw [Function.update_self, if_pos rfl, ho _ hl]
          omega
        · rw [Function.update_of_ne (Ne.symm hl'), if_neg hl', ho l hl, Nat.add_zero]
      · rw [hpos]
        rcases Nat.lt_succ_iff_lt_or_eq.mp ht with ht | rfl
        · rw [Function.update_of_ne (posOf_ne ht (by omega) ht0 h0)]
          exact hw t ht ht0
        · exact Function.update_self ..

theorem offsets_eq_countP (l : Nat) :
    offsets (countLengths lens) l = lens.countP (fun x => decide (1 ≤ x ∧ x < l)) := by
  induction l with
  | zero => simp [offsets]
  | succ l ih =>
    rcases Nat.eq_zero_or_pos l with rfl | hl
    · simp only [offsets]
      exact (List.countP_eq_zero.mpr fun x _ => by simp; omega).symm
    · rw [offsets_succ hl, ih, countLengths, List.count]
      clear ih
      induction lens with
      | nil => rfl
      | cons x xs ih =>
        simp only [List.countP_cons]
        have hx : (if decide (1 ≤ x ∧ x < l + 1) = true then 1 else 0) =
            (if decide (1 ≤ x ∧ x < l) = true then 1 else 0) + if (x == l) = true then 1 else 0 := by
          simp only [decide_eq_true_eq, beq_iff_eq]
          split_ifs <;> omega
        omega

theorem offsets_le_length (lens : List Nat) (l : Nat) : offsets (countLengths lens) l ≤ lens.length := by
  rw [offsets_eq_countP]
  exact List.countP_le_length

/-- The sorted table lists each coded symbol at its position. -/
theorem sortSymbols_posOf {s : Nat} (hs : s < lens.length) (h0 : lens.getD s 0 ≠ 0) :
    sortSymbols lens (posOf lens s) = s :=
  (sort_foldl lens.length le_rfl).2 s hs h0

/-- Every place of every length is taken by a symbol of that length. -/
theorem exists_symbol (lens : List Nat) {l j : Nat} (n : Nat) (hn : n ≤ lens.length)
    (hj : j < (lens.take n).count l) :
    ∃ s, s < n ∧ lens.getD s 0 = l ∧ rankOf lens s = j := by
  induction n with
  | zero => simp at hj
  | succ n ih =>
    have hcount := take_succ_count lens (show n < lens.length by omega) l
    by_cases h : j < (lens.take n).count l
    · obtain ⟨s, hs, h⟩ := ih (by omega) h
      exact ⟨s, by omega, h⟩
    · by_cases hl : lens.getD n 0 = l
      · rw [if_pos hl] at hcount
        refine ⟨n, by omega, hl, ?_⟩
        rw [rankOf, hl]
        omega
      · rw [if_neg hl] at hcount
        omega

/-- The symbol at a place of the sorted table. -/
theorem sortSymbols_spec (lens : List Nat) {l j : Nat} (hl : 1 ≤ l) (hj : j < countLengths lens l) :
    let s := sortSymbols lens (offsets (countLengths lens) l + j)
    s < lens.length ∧ lens.getD s 0 = l ∧ rankOf lens s = j := by
  obtain ⟨s, hs, h1, h2⟩ := exists_symbol lens (l := l) (j := j) lens.length le_rfl
    (by simpa [countLengths] using hj)
  have hpos : posOf lens s = offsets (countLengths lens) l + j := by rw [posOf, h1, h2]
  have := sortSymbols_posOf hs (by omega)
  rw [hpos] at this
  simp only [this]
  exact ⟨hs, h1, h2⟩

end Sorting
end ZlibNg
