import ZlibNg.Inflate.TreeSort

/-! The table-filling loop of `zng_inflate_table`: every bit pattern that starts with the code
word of a symbol is looked up to the entry of that symbol. -/
namespace ZlibNg

/-! Replication of one entry. -/

theorem replicate4_spec (here : Code) (base : Nat) {incr : Nat} (hi : 0 < incr) (fuel : Nat) :
    ∀ (fill : Nat) (table : Nat → Code), incr ∣ fill →
      let r := replicate4 here base incr fuel fill table
      r.1 ≤ fill ∧ incr ∣ r.1 ∧
        ∀ i, r.2 i = if base + r.1 ≤ i ∧ i < base + fill ∧ incr ∣ i - base then here
          else table i := by
  induction fuel with
  | zero =>
    intro fill table hd
    refine ⟨le_rfl, hd, fun i => ?_⟩
    rw [if_neg (by simp only [replicate4]; omega)]
    rfl
  | succ fuel ih =>
    intro fill table hd
    unfold replicate4
    split
    · next hle =>
      obtain ⟨k, rfl⟩ := hd
      have hsl : incr <<< 2 = incr * 4 := Nat.shiftLeft_eq incr 2
      rw [hsl] at hle ⊢
      have hk : 4 ≤ k := Nat.le_of_mul_le_mul_left hle hi
      obtain ⟨m, rfl⟩ := Nat.exists_eq_add_of_le' hk
      have hsub : ∀ c, c ≤ 4 → incr * (m + 4) - c * incr = incr * (m + (4 - c)) := by
        intro c hc
        rw [Nat.mul_comm c, ← Nat.mul_sub]
        congr 1
        omega
      have hfill : incr * (m + 4) - incr * 4 = incr * m := by
        rw [← Nat.mul_sub]; congr 1
      simp only [hfill]
      obtain ⟨h1, h2, h3⟩ := ih (incr * m) _ (Dvd.intro m rfl)
      refine ⟨h1.trans (Nat.mul_le_mul_left _ (by omega)), h2, fun i => ?_⟩
      rw [h3]
      generalize (replicate4 here base incr fuel (incr * m) _).1 = left at h1 h2 ⊢
      rw [hsub 1 (by omega), hsub 2 (by omega), hsub 3 (by omega), hsub 4 (by omega)]
      simp only [Nat.reduceSub, Nat.add_zero, Function.update_apply]
      by_cases hb : base ≤ i ∧ incr ∣ i - base
      · obtain ⟨hb1, q, hq⟩ := hb
        obtain rfl : i = base + incr * q := by omega
        simp only [Nat.add_sub_cancel_left, Nat.dvd_mul_right, and_true, Nat.add_left_cancel_iff,
          Nat.mul_right_inj hi.ne']
        have hlt : ∀ a b : Nat, incr * a < incr * b ↔ a < b := fun a b =>
          Nat.mul_lt_mul_left hi
        obtain ⟨r, hr⟩ := h2
        subst hr
        have hrm : r ≤ m := Nat.le_of_mul_le_mul_left h1 hi
        simp only [Nat.add_le_add_iff_left, Nat.add_lt_add_iff_left, hlt,
          Nat.mul_le_mul_left_iff hi]
        split_ifs <;> first | rfl | omega
      · have hne : ∀ c, i ≠ base + incr * c := by
          rintro c rfl
          exact hb ⟨by omega, by simp⟩
        rw [if_neg (fun h => hb ⟨by omega, h.2.2⟩), if_neg (hne _), if_neg (hne _),
          if_neg (hne _), if_neg (hne _), if_neg (fun h => hb ⟨by omega, h.2.2⟩)]
    · exact ⟨le_rfl, hd, fun i => by rw [if_neg (by omega)]⟩

theorem replicate1_spec (here : Code) {base incr : Nat} (hi : 0 < incr) (fuel : Nat) :
    ∀ (fill : Nat) (table : Nat → Code), incr ∣ fill → fill ≤ fuel → ∀ i,
      replicate1 here base incr fuel fill table i =
        if base ≤ i ∧ i < base + fill ∧ incr ∣ i - base then here else table i := by
  induction fuel with
  | zero =>
    intro fill table _ hf i
    rw [if_neg (by omega)]
    rfl
  | succ fuel ih =>
    intro fill table hd hf i
    unfold replicate1
    split
    · next h0 =>
      obtain ⟨k, rfl⟩ := hd
      obtain ⟨m, rfl⟩ := Nat.exists_eq_add_of_le' (show 1 ≤ k from
        Nat.pos_of_ne_zero (by rintro rfl; exact h0 (Nat.mul_zero _)))
      have hfill : incr * (m + 1) - incr = incr * m := by rw [Nat.mul_add, Nat.mul_one]; omega
      simp only [hfill]
      have hf' : incr * m ≤ fuel := by rw [Nat.mul_add] at hf; omega
      rw [ih (incr * m) _ (Dvd.intro m rfl) hf', Function.update_apply]
      by_cases hb : base ≤ i ∧ incr ∣ i - base
      · obtain ⟨hb1, q, hq⟩ := hb
        obtain rfl : i = base + incr * q := by omega
        simp only [Nat.add_sub_cancel_left, Nat.dvd_mul_right, and_true, Nat.add_left_cancel_iff,
          Nat.mul_right_inj hi.ne', Nat.add_lt_add_iff_left, Nat.mul_lt_mul_left hi]
        split_ifs <;> first | rfl | omega
      · have hne : i ≠ base + incr * m := by
          rintro rfl
          exact hb ⟨by omega, by simp⟩
        rw [if_neg (fun h => hb ⟨h.1, h.2.2⟩), if_neg hne, if_neg (fun h => hb ⟨h.1, h.2.2⟩)]
    · next h0 => rw [if_neg (by omega)]

theorem replicateEntry_apply (here : Code) {base incr fill : Nat} (hi : 0 < incr)
    (hd : incr ∣ fill) (table : Nat → Code) (i : Nat) :
    replicateEntry here base incr fill table i =
      if base ≤ i ∧ i < base + fill ∧ incr ∣ i - base then here else table i := by
  obtain ⟨h1, h2, h3⟩ := replicate4_spec here base hi fill fill table hd
  unfold replicateEntry
  rw [replicate1_spec here hi _ _ _ h2 le_rfl, h3]
  by_cases hb : base ≤ i ∧ incr ∣ i - base
  · simp only [hb.1, hb.2, and_true, true_and]
    split_ifs <;> first | rfl | omega
  · rw [if_neg (fun h => hb ⟨h.1, h.2.2⟩), if_neg (fun h => hb ⟨by omega, h.2.2⟩),
      if_neg (fun h => hb ⟨h.1, h.2.2⟩)]

end ZlibNg
