import ZlibNg.Inflate.TreeTable

/-! The space reserved for the tables suffices: sub-tables take no more entries than there are long
codes, but for what the sub-tables of mixed lengths waste together. -/
namespace ZlibNg

/-- The entries of a table with `n` index bits, less the codes that a path down to its last level
takes. -/
def slack (n : Nat) : Nat := 2 ^ n - n

theorem lt_slack (n : Nat) : 1 ≤ slack n := by
  have := Nat.lt_two_pow_self (n := n)
  unfold slack
  omega

theorem slack_mono {m n : Nat} (h : m ≤ n) : slack m ≤ slack n := by
  induction n, h using Nat.le_induction with
  | base => exact le_rfl
  | succ n _ ih =>
    have hpos := Nat.two_pow_pos n
    have hpow : 2 ^ (n + 1) = 2 ^ n + 2 ^ n := by ring
    unfold slack at ih ⊢
    omega

section Counts
variable {c : Nat → Nat}

/-- From the `j`-th code of length `l` on, a stretch as wide as `w` of these codes that longer codes
reach down to length `m` takes at least one more code for each length. -/
theorem index_le {l m j w i : Nat} (h1 : 1 ≤ l) (hm : l ≤ m) (hm16 : m ≤ 16)
    (hw : codePoint c l j + w * 2 ^ (16 - l) ≤ codePoint c m i)
    (hlong : codeBase c m < codePoint c l j + w * 2 ^ (16 - l)) :
    offsets c l + j + w + (m - l) ≤ offsets c m + i := by
  induction hk : m - l generalizing l j w with
  | zero =>
    obtain rfl : l = m := by omega
    have hmul : (j + w) * 2 ^ (16 - l) ≤ i * 2 ^ (16 - l) := by
      unfold codePoint at hw
      rw [Nat.add_mul]
      omega
    have := Nat.le_of_mul_le_mul_right hmul (Nat.two_pow_pos _)
    omega
  | succ k ih =>
    have hbase := codeBase_mono (c := c) (show l + 1 ≤ m by omega)
    have hpow : 2 ^ (16 - l) = 2 * 2 ^ (16 - (l + 1)) := by
      rw [← pow_succ']
      congr 1
      omega
    rw [codeBase_succ h1] at hbase
    -- the codes of length `l` do not fill the stretch
    have hshort : c l < j + w := by
      by_contra hge
      have hmul := Nat.mul_le_mul_right (2 ^ (16 - l)) (not_lt.mp hge)
      unfold codePoint at hlong
      rw [Nat.add_mul] at hmul
      omega
    obtain ⟨x, hx⟩ := Nat.exists_eq_add_of_lt hshort
    have hsame : codePoint c (l + 1) 0 + 2 * (x + 1) * 2 ^ (16 - (l + 1)) =
        codePoint c l j + w * 2 ^ (16 - l) := by
      unfold codePoint
      rw [codeBase_succ h1, Nat.add_assoc (codeBase c l) (j * _), ← Nat.add_mul, hx, hpow]
      ring
    rw [← hsame] at hw hlong
    have hnext := ih (by omega) (by omega) hw hlong (by omega)
    rw [offsets_succ h1] at hnext
    omega

/-- The least number of free places at all shorter lengths that leave `k` free. -/
def halves : Nat → Nat → Nat
  | 0, _ => 0
  | n + 1, k => (k + 1) / 2 + halves n ((k + 1) / 2)

theorem halves_mono (n : Nat) {k k' : Nat} (h : k ≤ k') : halves n k ≤ halves n k' := by
  induction n generalizing k k' with
  | zero => exact le_rfl
  | succ n ih =>
    have hhalf : (k + 1) / 2 ≤ (k' + 1) / 2 := Nat.div_le_div_right (by omega)
    exact Nat.add_le_add hhalf (ih hhalf)

theorem codesLeft_succ {n left : Nat} (h : codesLeft c (n + 1) = some left) :
    ∃ prev, codesLeft c n = some prev ∧ prev * 2 = left + c (n + 1) := by
  simp only [codesLeft, Option.bind_eq_some_iff] at h
  obtain ⟨prev, hp, h⟩ := h
  split at h
  · cases h
  · next hle =>
    have hleft := Option.some.inj h
    exact ⟨prev, hp, by omega⟩

theorem codesLeft_of_le {n m left : Nat} (h : codesLeft c n = some left) (hm : m ≤ n) :
    ∃ left', codesLeft c m = some left' := by
  induction n, hm using Nat.le_induction generalizing left with
  | base => exact ⟨left, h⟩
  | succ n _ ih =>
    obtain ⟨prev, hp, -⟩ := codesLeft_succ h
    exact ih hp

/-- Few places are left at a length only when enough shorter codes take the others. -/
theorem halves_le {n k : Nat} (h : codesLeft c n = some k) : 1 + halves n k ≤ offsets c (n + 1) + k := by
  induction n generalizing k with
  | zero =>
    obtain rfl : 1 = k := Option.some.inj h
    exact le_rfl
  | succ n ih =>
    obtain ⟨prev, hp, hk⟩ := codesLeft_succ h
    have hprev := ih hp
    have hhalf : (k + 1) / 2 ≤ prev := by omega
    have hmono := halves_mono n hhalf
    rw [offsets_succ (by omega)]
    unfold halves
    omega

/-- Each place left at a length takes two longer codes. -/
theorem two_mul_le {n m k left : Nat} (hk : codesLeft c m = some k) (hm : m < n)
    (h : codesLeft c n = some left) :
    2 * k + offsets c (m + 1) ≤ offsets c (n + 1) + left := by
  induction n, hm using Nat.le_induction generalizing left with
  | base =>
    obtain ⟨prev, hp, hleft⟩ := codesLeft_succ h
    obtain rfl := Option.some.inj (hk.symm.trans hp)
    rw [offsets_succ (l := m + 1) (by omega)]
    omega
  | succ n _ ih =>
    obtain ⟨prev, hp, hleft⟩ := codesLeft_succ h
    have hprev := ih hp
    rw [offsets_succ (l := n + 1) (by omega)]
    omega

/-- The look-ahead does not stop later than it must. -/
theorem subTableBits_min {B : Nat → Nat} {max E : Nat} (drop fuel curr : Nat) (left : Int)
    (hB : ∀ l, curr + drop ≤ l → B (l + 1) = B l + c l * 2 ^ (16 - l)) (hmax : max ≤ 15)
    (hleft : left * 2 ^ (16 - (curr + drop)) = (E : Int) - B (curr + drop)) :
    let k := subTableBits c drop max fuel curr left
    k = curr ∨ B (k + drop) < E := by
  induction fuel generalizing curr left with
  | zero => exact .inl rfl
  | succ fuel ih =>
    unfold subTableBits
    split
    · next hlt =>
      obtain ⟨hnext, htwice⟩ := subTableBits_left (by omega) (hB (curr + drop) le_rfl) hleft
      have hw : (0 : Int) < 2 ^ (16 - (curr + drop)) := by positivity
      simp only
      split
      · exact .inl rfl
      · next hpos =>
        have hstep := ih (curr + 1) ((left - c (curr + drop)) * 2) (fun l hl => hB l (by omega)) htwice
        rcases hstep with hstep | hstep
        · have hroom := mul_pos (not_le.mp hpos) hw
          rw [hnext] at hroom
          right
          rw [hstep, show curr + 1 + drop = curr + drop + 1 by omega]
          omega
        · exact .inr hstep
    · exact .inl rfl

end Counts

section Loop
variable {type : CodeType} {lens : List Nat} {root max j : Nat} {s : FillState}

/-- Where the stretch of the sub-table at hand ends on the code line. -/
def FillState.slotEnd (root : Nat) (s : FillState) : Nat := zngBitreverse16 s.low + 2 ^ (16 - root)

/-- The entries spent: those of the root table, or as many more as there are long codes up to the
end of the sub-table at hand, and what its levels waste. -/
def FillState.Spent (lens : List Nat) (root : Nat) (s : FillState) : Prop :=
  s.InRoot root ∨
    2 ∣ s.used ∧ 2 ^ (16 - root) ∣ zngBitreverse16 s.low ∧ zngBitreverse16 s.low ≤ s.rhuff ∧
    codeBase (countLengths lens) (root + s.curr) < s.slotEnd root ∧
    ∃ n, s.used + 1 + offsets (countLengths lens) (root + 1) ≤ 2 ^ root + n + slack s.curr ∧
      ∀ l i, 1 ≤ l → i < countLengths lens l → s.slotEnd root ≤ codePoint (countLengths lens) l i →
        n ≤ offsets (countLengths lens) l + i

theorem FillState.enter_fields (type : CodeType) (lens : List Nat) (work : Nat → Nat) (max : Nat)
    (s : FillState) : let t := (s.enter type lens work max).2
    (t.used, t.low, t.curr, t.drop, t.next) = (s.used, s.low, s.curr, s.drop, s.next) ∧
      t.table = (s.write type work).table := by
  unfold FillState.enter
  dsimp only
  split
  · split <;> exact ⟨rfl, rfl⟩
  · exact ⟨rfl, rfl⟩

/-- The codes come in their order on the code line. -/
theorem codePoint_le_of_offsets {c : Nat → Nat} {l i l' i' : Nat} (h1 : 1 ≤ l) (hi : i < c l)
    (h1' : 1 ≤ l') (hi' : i' < c l') (h : offsets c l + i < offsets c l' + i') :
    codePoint c l i ≤ codePoint c l' i' := by
  have horder : l < l' ∨ l = l' ∧ i < i' := by
    rcases Nat.lt_trichotomy l l' with hlt | rfl | hgt
    · exact .inl hlt
    · exact .inr ⟨rfl, by omega⟩
    · have hmono := offsets_mono (c := c) (show l' + 1 ≤ l from hgt)
      rw [offsets_succ h1'] at hmono
      omega
  exact (Nat.le_add_right _ _).trans (codePoint_before h1 hi horder)

theorem FillState.Spent.enter (h : s.Ready type lens root max j) (hs : s.Spent lens root)
    {t : FillState} {j' : Nat} (ht : t = (s.enter type lens (sortSymbols lens) max).2)
    (hpos : t.At lens max j') (hsym : s.sym < t.sym) : t.Spent lens root := by
  obtain ⟨hfields, -⟩ := FillState.enter_fields type lens (sortSymbols lens) max s
  rw [← ht] at hfields
  simp only [Prod.mk.injEq] at hfields
  obtain ⟨hused, hlow, hcurr, hdrop, hnext⟩ := hfields
  rcases hs with hr | ⟨heven, hdvd, hstart, hreach, hcount⟩
  · exact .inl ⟨hdrop.trans hr.drop, hnext.trans hr.next, hcurr.trans hr.curr, hlow.trans hr.low,
      hused.trans hr.used⟩
  · right
    have hle : s.rhuff ≤ t.rhuff := by
      rw [h.pos.rhuff, hpos.rhuff]
      refine codePoint_le_of_offsets h.pos.pos h.pos.lt hpos.pos hpos.lt ?_
      rw [← h.pos.sym, ← hpos.sym]
      exact hsym
    rw [FillState.slotEnd, hused, hlow, hcurr]
    exact ⟨heven, hdvd, hstart.trans hle, hreach, hcount⟩

/-- Before a new sub-table, no more entries are spent than the codes so far account for. -/
theorem FillState.Spent.before (hf : Fits lens root max) (h : s.Entered type lens root max j)
    (hs : s.Spent lens root) (hlen : root < s.len) (hne : s.huff % 2 ^ root ≠ s.low) :
    2 ∣ s.used ∧ s.used + 1 + offsets (countLengths lens) (root + 1) ≤
      2 ^ root + s.sym + slack (s.len - root) := by
  have hrp := hf.root_pos
  have hmx := hf.max_le
  have hrt := hf.root_le
  have hoff := offsets_mono (c := countLengths lens) (show root + 1 ≤ s.len by omega)
  have hsym := h.pos.sym
  have hpt := hf.codePoint_lt h.pos.pos h.pos.le h.pos.lt
  have hinRoot : s.InRoot root → 2 ∣ s.used ∧ s.used + 1 + offsets (countLengths lens) (root + 1) ≤
      2 ^ root + s.sym + slack (s.len - root) := by
    intro hr
    have hslack := lt_slack (s.len - root)
    rw [hr.used]
    exact ⟨dvd_pow_self 2 (by omega), by omega⟩
  rcases h.region with hr | ⟨hr, -⟩
  · exact hinRoot hr
  · rcases hs with hs | ⟨heven, hdvd, hstart, hreach, n, hn, hcount⟩
    · exact hinRoot hs
    · -- the code is past the end of the sub-table at hand
      have hpast : s.slotEnd root ≤ s.rhuff := by
        have hal := h.aligned hlen hne
        have hrev : zngBitreverse16 s.huff = s.rhuff := by
          rw [h.pos.huff, h.pos.rhuff, zngBitreverse16_reverse hpt]
        rw [← Nat.mod_eq_of_lt hr.low, ne_eq, mod_two_pow_eq_iff_reverse _ _ (by omega), hrev] at hne
        obtain ⟨a, ha⟩ := hal
        obtain ⟨b, hb⟩ := hdvd
        have hw := Nat.two_pow_pos (16 - root)
        rw [ha, hb, Nat.mul_div_cancel_left _ hw, Nat.mul_div_cancel_left _ hw] at hne
        unfold FillState.slotEnd
        rw [ha, hb] at hstart ⊢
        have hab := Nat.le_of_mul_le_mul_left hstart hw
        calc 2 ^ (16 - root) * b + 2 ^ (16 - root) = 2 ^ (16 - root) * (b + 1) := by ring
          _ ≤ 2 ^ (16 - root) * a := Nat.mul_le_mul_left _ (by omega)
      rw [h.pos.rhuff] at hpast
      have hn' := hcount s.len j h.pos.pos h.pos.lt hpast
      have hcurr : root + s.curr ≤ s.len := by
        by_contra hshort
        have hend := codePoint_end (c := countLengths lens) h.pos.pos h.pos.lt
        have hmono := codeBase_mono (c := countLengths lens) (show s.len + 1 ≤ root + s.curr by omega)
        have hw := Nat.two_pow_pos (16 - s.len)
        omega
      have hslack := slack_mono (show s.curr ≤ s.len - root by omega)
      exact ⟨heven, by omega⟩

namespace FillState.Entered

/-- The slot of a new sub-table is the place of its first code. -/
theorem subTable_low (hf : Fits lens root max) (h : s.Entered type lens root max j)
    (hlen : root < s.len) (hne : s.huff % 2 ^ root ≠ s.low) :
    zngBitreverse16 (s.subTable root max).low = s.rhuff := by
  have hlow : (s.subTable root max).low = s.huff := by
    simp only [FillState.subTable, and_mask, h.huff_mod hf hlen hne]
  rw [hlow, h.rev_huff hf]

/-- The look-ahead stops at the length of the last code in the stretch. -/
theorem subTable_reach (hf : Fits lens root max) (h : s.Entered type lens root max j)
    (hlen : root < s.len) : codeBase (countLengths lens) (root + (s.subTable root max).curr) <
      s.rhuff + 2 ^ (16 - root) := by
  have hmx := hf.max_le
  have hle := h.pos.le
  have hmin := subTableBits_min (c := s.count) (B := s.lineEnd lens) (E := s.rhuff + 2 ^ (16 - root))
    root 16 (s.len - root) ((1 <<< (s.len - root) : Nat) : Int)
    (fun l hl => h.lineEnd_succ (by omega)) hmx (stretch hlen (by omega))
  rw [← h.subTable_curr hf] at hmin
  obtain ⟨hcap, -, -⟩ := h.subTable_room hf hlen
  have hw := Nat.two_pow_pos (16 - root)
  rcases Nat.eq_or_lt_of_le hcap with heq | hlt
  · rw [← heq]
    have hpoint := h.pos.rhuff
    unfold codePoint at hpoint
    omega
  · have hend := hmin.resolve_left (by omega)
    rw [lineEnd, if_neg (by omega)] at hend
    rw [Nat.add_comm root]
    exact hend

/-- The stretch of a sub-table is no longer than the codes that fit into it. -/
theorem subTable_stretch (hf : Fits lens root max)
    (hfull : codeBase (countLengths lens) (max + 1) = 2 ^ 16) (h : s.Entered type lens root max j)
    (hlen : root < s.len) (hne : s.huff % 2 ^ root ≠ s.low) : s.rhuff + 2 ^ (16 - root) ≤
      codeBase (countLengths lens) (root + (s.subTable root max).curr + 1) := by
  obtain ⟨-, -, hroom⟩ := h.subTable_room hf hlen
  rcases hroom with hend | hroom
  · have hrt := hf.root_le
    have hmx := hf.max_le
    have hpt := hf.codePoint_lt h.pos.pos h.pos.le h.pos.lt
    obtain ⟨a, ha⟩ := h.aligned hlen hne
    have hpow : 2 ^ 16 = 2 ^ (16 - root) * 2 ^ root := by
      rw [← pow_add]
      congr 1
      omega
    rw [hend, hfull]
    rw [h.pos.rhuff] at ha ⊢
    rw [ha, hpow] at hpt
    have hlt := Nat.lt_of_mul_lt_mul_left hpt
    rw [ha, hpow]
    calc 2 ^ (16 - root) * a + 2 ^ (16 - root) = 2 ^ (16 - root) * (a + 1) := by ring
      _ ≤ 2 ^ (16 - root) * 2 ^ root := Nat.mul_le_mul_left _ hlt
  · exact hroom

/-- So many codes come before those of the last length in a sub-table that are behind its stretch. -/
theorem subTable_index (hf : Fits lens root max) (h : s.Entered type lens root max j)
    (hlen : root < s.len) {i : Nat} (hi : s.rhuff + 2 ^ (16 - root) ≤
      codePoint (countLengths lens) (root + (s.subTable root max).curr) i) :
    s.sym + 2 ^ (s.len - root) + (root + (s.subTable root max).curr - s.len) ≤
      offsets (countLengths lens) (root + (s.subTable root max).curr) + i := by
  have hmx := hf.max_le
  have hle := h.pos.le
  obtain ⟨hcap, hhigh, -⟩ := h.subTable_room hf hlen
  have hstretch : codePoint (countLengths lens) s.len j + 2 ^ (s.len - root) * 2 ^ (16 - s.len) =
      s.rhuff + 2 ^ (16 - root) := by
    rw [← h.pos.rhuff, ← pow_add, show s.len - root + (16 - s.len) = 16 - root by omega]
  rw [h.pos.sym]
  exact index_le h.pos.pos hcap (by omega) (hstretch.trans_le hi)
    ((h.subTable_reach hf hlen).trans_eq hstretch.symm)

end FillState.Entered

/-- A new sub-table, with the entries it takes. -/
theorem FillState.Spent.subTable (hf : Fits lens root max)
    (hfull : codeBase (countLengths lens) (max + 1) = 2 ^ 16) (h : s.Entered type lens root max j)
    (hs : s.Spent lens root) (hlen : root < s.len) (hne : s.huff % 2 ^ root ≠ s.low) :
    (s.subTable root max).Spent lens root ∧ 2 ∣ (s.subTable root max).used ∧
      (s.subTable root max).used + 1 + offsets (countLengths lens) (root + 1) ≤
        2 ^ root + offsets (countLengths lens) (max + 1) + slack (max - root) := by
  obtain ⟨heven, hbefore⟩ := hs.before hf h hlen hne
  have hlow := h.subTable_low hf hlen hne
  have hend : (s.subTable root max).slotEnd root = s.rhuff + 2 ^ (16 - root) := by
    unfold FillState.slotEnd
    rw [hlow]
  have hused : (s.subTable root max).used = s.used + 2 ^ (s.subTable root max).curr := by
    simp only [FillState.subTable, Nat.one_shiftLeft]
  obtain ⟨hcap, hhigh, -⟩ := h.subTable_room hf hlen
  have hroom := h.subTable_stretch hf hfull hlen hne
  -- so many codes come before the end of the stretch
  have hall : s.sym + 2 ^ (s.len - root) + (root + (s.subTable root max).curr - s.len) ≤
      offsets (countLengths lens) (root + (s.subTable root max).curr + 1) := by
    rw [offsets_succ (by omega)]
    refine h.subTable_index hf hlen ?_
    rw [codePoint, ← codeBase_succ (by omega)]
    exact hroom
  have hwaste : (s.subTable root max).used + 1 + offsets (countLengths lens) (root + 1) ≤
      2 ^ root + (s.sym + 2 ^ (s.len - root) + (root + (s.subTable root max).curr - s.len)) +
        slack (s.subTable root max).curr := by
    have hpow := Nat.lt_two_pow_self (n := (s.subTable root max).curr)
    have hpow' := Nat.lt_two_pow_self (n := s.len - root)
    unfold slack at hbefore ⊢
    omega
  have hpos : 1 ≤ (s.subTable root max).curr := by omega
  have heven' : 2 ∣ (s.subTable root max).used := by
    rw [hused]
    exact Nat.dvd_add heven (dvd_pow_self 2 (by omega))
  refine ⟨.inr ⟨heven', ?_, ?_, ?_, _, hwaste, fun l i hl hi hpast => ?_⟩, heven', ?_⟩
  · rw [hlow]
    exact h.aligned hlen hne
  · rw [hlow]
    exact le_rfl
  · rw [hend]
    exact h.subTable_reach hf hlen
  · rw [hend] at hpast
    rcases Nat.lt_trichotomy l (root + (s.subTable root max).curr) with hlt | rfl | hgt
    · -- a code that is too short ends before the stretch does
      have hreach := h.subTable_reach hf hlen
      have hend' := codePoint_end (c := countLengths lens) hl hi
      have hmono := codeBase_mono (c := countLengths lens)
        (show l + 1 ≤ root + (s.subTable root max).curr by omega)
      have hw := Nat.two_pow_pos (16 - l)
      omega
    · exact h.subTable_index hf hlen hpast
    · have hmono := offsets_mono (c := countLengths lens)
        (show root + (s.subTable root max).curr + 1 ≤ l by omega)
      omega
  · have hmono := offsets_mono (c := countLengths lens)
      (show root + (s.subTable root max).curr + 1 ≤ max + 1 by omega)
    have hslack := slack_mono (show (s.subTable root max).curr ≤ max - root by omega)
    omega

/-- The loop does not run out of space, and writes nothing behind the entries it counts. -/
theorem fillTable_enough (hf : Fits lens root max)
    (hfull : root < max → codeBase (countLengths lens) (max + 1) = 2 ^ 16)
    (hroom : ∀ used, 2 ∣ used → used + 1 + offsets (countLengths lens) (root + 1) ≤
      2 ^ root + offsets (countLengths lens) (max + 1) + slack (max - root) →
      type.notEnough used = false)
    (fuel : Nat) (h : s.Ready type lens root max j) (hfuel : lens.length ≤ s.sym + fuel)
    (hs : s.Spent lens root) (hused : type.notEnough s.used = false) :
    ∃ t, fillTable type lens (sortSymbols lens) root max fuel s = .ok t ∧
      type.notEnough t.used = false ∧ s.used ≤ t.used ∧ ∀ i, t.used ≤ i → t.table i = s.table i := by
  induction fuel generalizing s j with
  | zero =>
    have hsym := h.pos.sym_lt
    omega
  | succ fuel ih =>
    have henter := h.enter hf
    obtain ⟨hfields, htable⟩ := FillState.enter_fields type lens (sortSymbols lens) max s
    have hwrite : ∀ i, s.used ≤ i → (s.write type (sortSymbols lens)).table i = s.table i := by
      intro i hi
      rcases h.region with ⟨hr, hlen⟩ | ⟨hr, hlen, hcap, -⟩
      · have hnext := hr.next
        have hcurr := hr.curr
        have hu := hr.used
        rw [FillState.write_table type hf h.pos (by rw [hr.drop]; omega) (by rw [hr.drop]; omega),
          if_neg (by rw [hnext, hcurr]; omega)]
      · have hu := hr.used
        rw [FillState.write_table type hf h.pos (by rw [hr.drop]; omega) (by rw [hr.drop]; omega),
          if_neg (by omega)]
    unfold fillTable
    rcases hr : s.enter type lens (sortSymbols lens) max with ⟨last, s'⟩
    rw [hr] at henter hfields htable
    simp only [Prod.mk.injEq] at hfields
    obtain ⟨hu, -⟩ := hfields
    dsimp only at hu htable
    rcases henter with ⟨h1, h2, -⟩ | ⟨h1, j', h2, h3⟩
    · dsimp only at h1
      subst h1
      exact ⟨s', rfl, by rw [hu]; exact hused, hu.ge, fun i hi => by rw [htable, hwrite i (by omega)]⟩
    · dsimp only at h1 h2 h3
      subst h1
      have hs' : s'.Spent lens root := hs.enter h (by rw [hr]) h2.pos h3
      simp only [and_mask]
      split
      · next hc =>
        have hfull' := hfull (hc.1.trans_le h2.pos.le)
        obtain ⟨hspent, heven, hle⟩ := hs'.subTable hf hfull' h2 hc.1 hc.2
        have henough := hroom _ heven hle
        rw [henough]
        obtain ⟨t, ht, ht1, ht2, ht3⟩ := ih (h2.subTable hf hc.1 hc.2)
          (show lens.length ≤ s'.sym + fuel by omega) hspent henough
        have hmore : s'.used ≤ (s'.subTable root max).used := Nat.le_add_right _ _
        refine ⟨t, ht, ht1, by omega, fun i hi => ?_⟩
        have hlow : i ≠ s'.huff % 2 ^ root := by
          have hmod := Nat.mod_lt s'.huff (Nat.two_pow_pos root)
          have hroot : 2 ^ root ≤ s'.used := by
            rcases h2.region with hin | ⟨hin, -⟩
            · exact hin.used.ge
            · exact hin.next.trans (hin.used ▸ Nat.le_add_right _ _)
          omega
        rw [ht3 i hi, ← hwrite i (by omega), ← htable]
        simp only [FillState.subTable, and_mask, Function.update_of_ne hlow]
      · next hc =>
        obtain ⟨t, ht, ht1, ht2, ht3⟩ := ih (h2.stay hf hc)
          (show lens.length ≤ s'.sym + fuel by omega) hs' (by rw [hu]; exact hused)
        exact ⟨t, ht, ht1, by omega, fun i hi => by rw [ht3 i hi, htable, hwrite i (by omega)]⟩

end Loop

/-- The lengths that `inflate` passes, with the root index bits it asks for. -/
inductive CodeType.Passed : CodeType → Nat → Nat → Prop
  | codes {n : Nat} (h : n ≤ 19) : Passed .codes n 7
  | lens {n : Nat} (h : n ≤ 286) : Passed .lens n 10
  | dists {n : Nat} (h : n ≤ 30) : Passed .dists n 9

namespace CodeType.Passed
variable {type : CodeType} {n bits : Nat}

theorem bits_le (h : type.Passed n bits) : 1 ≤ bits ∧ bits ≤ maxBits := by
  cases h <;> exact ⟨by decide, by decide⟩

theorem lt_two_pow (h : type.Passed n bits) : n < 2 ^ bits := by
  cases h <;> omega

theorem room (h : type.Passed n bits) : n * 2 ^ (maxBits - bits) < 2 ^ 15 := by
  cases h <;> simp only [maxBits] <;> omega

theorem root_enough (h : type.Passed n bits) {root : Nat} (hr : root ≤ bits) :
    type.notEnough (2 ^ root) = false := by
  have hpow := Nat.pow_le_pow_right (n := 2) (by decide) hr
  cases h with
  | codes _ => rfl
  | lens _ => exact decide_eq_false (by unfold enoughLens; omega)
  | dists _ => exact decide_eq_false (by unfold enoughDists; omega)

/-- What long codes and the waste of their sub-tables come to. -/
theorem enough (h : type.Passed n bits) {short total used root max : Nat} (hn : total ≤ n)
    (hroot : root = max ∧ max ≤ bits ∨ root = bits ∧ max ≤ maxBits ∧
      ∃ k, 0 < k ∧ 1 + halves bits k ≤ short + k ∧ 2 * k + short ≤ total)
    (heven : 2 ∣ used) (hused : used + 1 + short ≤ 2 ^ root + total + slack (max - root)) :
    type.notEnough used = false := by
  rcases hroot with ⟨rfl, hle⟩ | ⟨rfl, hle, k, hpos, hk, hlong⟩
  · have hpow := Nat.pow_le_pow_right (n := 2) (by decide) hle
    have hslack : slack (root - root) = 1 := by
      rw [Nat.sub_self]
      rfl
    cases h with
    | codes _ => rfl
    | lens _ => exact decide_eq_false (by unfold enoughLens; omega)
    | dists _ => exact decide_eq_false (by unfold enoughDists; omega)
  · have hslack := slack_mono (show max - root ≤ maxBits - root by omega)
    cases h with
    | codes _ => rfl
    | lens hn' =>
      -- of all numbers of places, 128 can be left by the fewest short codes
      have hfew : ∀ k < 144, 0 < k → k + 2 ≤ halves 10 k := by decide
      have hk' := hfew k (by omega) hpos
      have hwaste : slack (maxBits - 10) = 27 := by decide
      exact decide_eq_false (by unfold enoughLens; omega)
    | dists hn' =>
      have hfew : ∀ k < 16, 0 < k → k + 5 ≤ halves 9 k := by decide
      have hk' := hfew k (by omega) hpos
      have hwaste : slack (maxBits - 9) = 58 := by decide
      exact decide_eq_false (by unfold enoughDists; omega)

end CodeType.Passed

/-- What `zng_inflate_table` accepts: no codes, a complete code, or a single code of length one. -/
def Accepts (type : CodeType) (lens : List Nat) : Prop :=
  maxLength (countLengths lens) maxBits = 0 ∨
    ∃ left, codesLeft (countLengths lens) maxBits = some left ∧
      ¬ (0 < left ∧ (type = .codes ∨ maxLength (countLengths lens) maxBits ≠ 1))

/-- A complete code with lengths above `root` leaves places in the root table, and each of them
takes two codes or more. -/
theorem places_left {lens : List Nat} {root max : Nat} (hf : Fits lens root max) (hlt : root < max)
    (hmax : codeBase (countLengths lens) (maxBits + 1) = codeBase (countLengths lens) (max + 1))
    (hleft : codesLeft (countLengths lens) maxBits = some 0) :
    ∃ k, 0 < k ∧ 1 + halves root k ≤ offsets (countLengths lens) (root + 1) + k ∧
      2 * k + offsets (countLengths lens) (root + 1) ≤ offsets (countLengths lens) (max + 1) := by
  have h15 : maxBits = 15 := rfl
  have hm := hf.max_le
  have hlast := hf.last
  have hline := codesLeft_codeBase (n := maxBits) (by decide) hleft
  obtain ⟨k, hk⟩ := codesLeft_of_le hleft (show root ≤ maxBits by omega)
  obtain ⟨r, hr⟩ := codesLeft_of_le hleft (show max ≤ maxBits by omega)
  have hnone : r = 0 := by
    have hline' := codesLeft_codeBase (n := max) hm hr
    have hpow := Nat.two_pow_pos (16 - max)
    by_contra hne
    have hmul := Nat.mul_pos (Nat.pos_of_ne_zero hne) hpow
    omega
  refine ⟨k, ?_, halves_le hk, ?_⟩
  · by_contra hk0
    obtain rfl : k = 0 := by omega
    have hline' := codesLeft_codeBase (n := root) (by omega) hk
    have hmono := codeBase_mono (c := countLengths lens) (show root + 1 ≤ max by omega)
    have hend := codePoint_end (c := countLengths lens) (l := max) (j := 0) (by omega) (by omega)
    have hpow := Nat.two_pow_pos (16 - max)
    unfold codePoint at hend
    omega
  · have htwo := two_mul_le hk hlt hr
    omega

/-- The index bits that are chosen for an accepted code. -/
theorem CodeType.Passed.fits {type : CodeType} {lens : List Nat} {bits root max left : Nat}
    (hp : type.Passed lens.length bits) (hleft : codesLeft (countLengths lens) maxBits = some left)
    (hmax : codeBase (countLengths lens) (maxBits + 1) = codeBase (countLengths lens) (max + 1))
    (hlast : countLengths lens max ≠ 0) (hle : max ≤ maxBits) (hpos : 1 ≤ root) (hroot : root ≤ max)
    (hmin : min bits max ≤ root) : Fits lens root max := by
  have h15 : maxBits = 15 := rfl
  have hline := codesLeft_codeBase (n := maxBits) (by decide) hleft
  have hroom := hp.room
  have hbits := hp.bits_le
  refine ⟨hle, hpos, hroot, hlast, by omega, ?_⟩
  have hpow : 2 ^ root ≤ 2 ^ 15 := Nat.pow_le_pow_right (by norm_num) (hroot.trans hle)
  have hmul := Nat.mul_le_mul_left lens.length (Nat.pow_le_pow_right (n := 2) (by norm_num)
    (show max - root ≤ maxBits - bits by omega))
  omega

/-- It returns a table that fits, or -1. -/
theorem zngInflateTable_result {type : CodeType} {lens : List Nat} {bits : Nat}
    (hp : type.Passed lens.length bits) :
    (Accepts type lens ∧ ∃ t, zngInflateTable type lens bits = .ok t ∧
      type.notEnough t.used = false ∧ ∀ i, t.used ≤ i → t.entry i = default) ∨
    (¬ Accepts type lens ∧ zngInflateTable type lens bits = .error (-1)) := by
  unfold zngInflateTable Accepts
  by_cases h0 : maxLength (countLengths lens) maxBits = 0
  · rw [if_pos h0]
    refine .inl ⟨.inl h0, _, rfl, ?_, fun i hi => ?_⟩
    · cases hp <;> rfl
    · dsimp only at hi ⊢
      rw [Function.update_of_ne (by omega), Function.update_of_ne (by omega)]
  rw [if_neg h0]
  dsimp only
  cases hleft : codesLeft (countLengths lens) maxBits with
  | none => exact .inr ⟨by simp [h0], rfl⟩
  | some left =>
    by_cases hreject : 0 < left ∧ (type = .codes ∨ maxLength (countLengths lens) maxBits ≠ 1)
    · refine .inr ⟨?_, if_pos hreject⟩
      rintro (h | ⟨left', hl, hno⟩)
      · exact h0 h
      · obtain rfl := Option.some.inj hl
        exact hno hreject
    · left
      refine ⟨.inr ⟨left, rfl, hreject⟩, ?_⟩
      dsimp only
      rw [if_neg hreject]
      obtain ⟨hm1, hm2, hm3⟩ := maxLength_spec (c := countLengths lens) maxBits h0
      obtain ⟨hn1, hn2, hn3, hn4⟩ :=
        minLength_spec (c := countLengths lens) maxBits 1 (by omega) hm1 hm3
      have hline := codesLeft_codeBase (n := maxBits) (by decide) hleft
      have hmax := codeBase_max h0
      have hone : 0 < left → maxLength (countLengths lens) maxBits = 1 := by
        intro hpos
        by_contra hne
        exact hreject ⟨hpos, .inr hne⟩
      have hmin : minLength (countLengths lens) (maxLength (countLengths lens) maxBits) maxBits 1 ≤
          bits := by
        rcases Nat.eq_zero_or_pos left with rfl | hpos
        · exact minLength_le hp.lt_two_pow h0 hleft
        · have := hone hpos
          have := hp.bits_le
          omega
      have hbits := hp.bits_le
      have h15 : maxBits = 15 := rfl
      generalize hmaxeq : maxLength (countLengths lens) maxBits = max at *
      generalize hroot : (min bits max).max (minLength (countLengths lens) max maxBits 1) = root
      generalize minLength (countLengths lens) max maxBits 1 = mn at *
      have hr1 : mn ≤ root := hroot ▸ Nat.le_max_right _ _
      have hr2 : min bits max ≤ root := hroot ▸ Nat.le_max_left _ _
      have hr3 : root ≤ max := hroot ▸ Nat.max_le.mpr ⟨Nat.min_le_right _ _, hn2⟩
      have hr4 : root ≤ bits := hroot ▸ Nat.max_le.mpr ⟨Nat.min_le_left _ _, hmin⟩
      have henough := hp.root_enough hr4
      have hf : Fits lens root max := hp.fits hleft hmax hm3 hm2 (by omega) hr3 hr2
      have hzero : root < max → left = 0 := by
        intro hlt
        by_contra hne
        have := hone (by omega)
        omega
      rw [← Nat.one_shiftLeft] at henough
      rw [if_neg (by rw [henough]; decide)]
      have hready : FillState.Ready type lens root max _ 0 := start_ready hn1 hn2 hr1 hn3 hn4
      obtain ⟨t, ht, ht1, ht2, ht3⟩ := fillTable_enough hf
        (fun hlt => by
          rw [hzero hlt, Nat.zero_mul, Nat.zero_add] at hline
          omega)
        (fun used heven hused => hp.enough (offsets_le_length lens (max + 1)) (by
          rcases Nat.lt_or_ge root max with hlt | hge
          · right
            have hrb : root = bits := by omega
            obtain ⟨k, hpos, hk, hlong⟩ := places_left hf hlt hmax (hzero hlt ▸ hleft)
            exact ⟨hrb, hm2, k, hpos, hrb ▸ hk, hlong⟩
          · exact .inl ⟨by omega, by omega⟩) heven hused)
        lens.length hready (Nat.zero_add _).ge
        (.inl ⟨rfl, rfl, rfl, rfl, Nat.one_shiftLeft root⟩) henough
      rw [ht]
      refine ⟨_, rfl, ht1, fun i hi => ?_⟩
      dsimp only at hi ht2 ⊢
      have hpow := Nat.pow_le_pow_right (n := 2) (by decide) hf.root_pos
      rw [Nat.one_shiftLeft] at ht2
      rcases fillTable_last hf h0 hmaxeq hleft hone hready rfl ht with
        ⟨-, hz⟩ | ⟨-, -, -, -, hhuff, hnext, -⟩
      · rw [if_neg (by omega), ht3 i hi]
      · rw [if_pos (by omega), Function.update_of_ne (by omega), ht3 i hi]

/-- The tables that `inflate` builds for a block fit the space reserved for them, and nothing is
written past their ends. -/
theorem inflate_tables_enough {lens dists : List Nat} (hlens : lens.length ≤ 286)
    (hdists : dists.length ≤ 30) :
    zngInflateTable .lens lens 10 ≠ .error 1 ∧ zngInflateTable .dists dists 9 ≠ .error 1 ∧
    (∀ t, zngInflateTable .lens lens 10 = .ok t →
      t.used ≤ enoughLens ∧ ∀ i, t.used ≤ i → t.entry i = default) ∧
    (∀ t, zngInflateTable .dists dists 9 = .ok t →
      t.used ≤ enoughDists ∧ ∀ i, t.used ≤ i → t.entry i = default) := by
  have key : ∀ {type : CodeType} {lens : List Nat} {bits : Nat}, type.Passed lens.length bits →
      zngInflateTable type lens bits ≠ .error 1 ∧ ∀ t, zngInflateTable type lens bits = .ok t →
        type.notEnough t.used = false ∧ ∀ i, t.used ≤ i → t.entry i = default := by
    intro type lens bits hp
    rcases zngInflateTable_result hp with ⟨-, t, ht, hfit, hrest⟩ | ⟨-, he⟩
    · rw [ht]
      refine ⟨fun h => (by cases h), fun t' ht' => ?_⟩
      obtain rfl := Except.ok.inj ht'
      exact ⟨hfit, hrest⟩
    · rw [he]
      exact ⟨fun h => (by cases h), fun t h => (by cases h)⟩
  obtain ⟨hl, hlt⟩ := key (.lens hlens)
  obtain ⟨hd, hdt⟩ := key (.dists hdists)
  refine ⟨hl, hd, fun t ht => ⟨?_, (hlt t ht).2⟩, fun t ht => ⟨?_, (hdt t ht).2⟩⟩
  · exact not_lt.mp (of_decide_eq_false (hlt t ht).1)
  · exact not_lt.mp (of_decide_eq_false (hdt t ht).1)

/-- Lengths of 286 symbols, with sub-tables up to the longest. -/
def deepLens : List Nat :=
  [1, 2, 3, 4, 5, 7] ++ List.replicate 3 11 ++ [12] ++ List.replicate 81 13 ++
    List.replicate 193 14 ++ [15, 15]

/-- Lengths of 30 symbols. -/
def deepDists : List Nat :=
  [1, 2, 3, 4, 5, 6, 7, 10] ++ List.replicate 9 11 ++ List.replicate 9 12 ++ [13, 14, 15, 15]

/-- Tables with sub-tables: the one for the distances takes all the space there is. -/
theorem inflate_tables_enough_deep : ∃ t u, zngInflateTable .lens deepLens 10 = .ok t ∧
    t.used = 1330 ∧ t.used ≤ enoughLens ∧ zngInflateTable .dists deepDists 9 = .ok u ∧
    u.used = enoughDists ∧ ∀ i, 592 ≤ i → u.entry i = default := by
  have hlens : (zngInflateTable .lens deepLens 10).toOption.map DecodeTable.used = some 1330 := by
    decide +kernel
  have hdists : (zngInflateTable .dists deepDists 9).toOption.map DecodeTable.used = some 592 := by
    decide +kernel
  obtain ⟨-, -, hl, hd⟩ :=
    @inflate_tables_enough deepLens deepDists (by decide +kernel) (by decide +kernel)
  cases ht : zngInflateTable .lens deepLens 10 with
  | error e =>
    rw [ht] at hlens
    cases hlens
  | ok t =>
    cases hu : zngInflateTable .dists deepDists 9 with
    | error e =>
      rw [hu] at hdists
      cases hdists
    | ok u =>
      rw [ht] at hlens
      rw [hu] at hdists
      have hused : u.used = 592 := Option.some.inj hdists
      exact ⟨t, u, rfl, Option.some.inj hlens, (hl t ht).1, rfl, hused, hused ▸ (hd u hu).2⟩

end ZlibNg
