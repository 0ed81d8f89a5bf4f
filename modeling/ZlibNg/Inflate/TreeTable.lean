import ZlibNg.Inflate.TreeLoop

/-! Sub-tables, the whole table-filling loop, and what a table built by `zng_inflate_table`
answers to every bit string. -/
namespace ZlibNg

section Loop
variable {type : CodeType} {lens : List Nat} {root max : Nat} {s : FillState} {j : Nat}

/-- One more bit of a sub-table: `left` counts what the lengths so far leave of the code space. -/
theorem subTableBits_left {c B : Nat → Nat} {drop curr E : Nat} {left : Int} (hcurr : curr + drop < 16)
    (hB : B (curr + drop + 1) = B (curr + drop) + c (curr + drop) * 2 ^ (16 - (curr + drop)))
    (hleft : left * 2 ^ (16 - (curr + drop)) = (E : Int) - B (curr + drop)) :
    (left - c (curr + drop)) * 2 ^ (16 - (curr + drop)) = (E : Int) - B (curr + drop + 1) ∧
      (left - c (curr + drop)) * 2 * 2 ^ (16 - (curr + 1 + drop)) =
        (E : Int) - B (curr + 1 + drop) := by
  have hnext : (left - c (curr + drop)) * 2 ^ (16 - (curr + drop)) =
      (E : Int) - B (curr + drop + 1) := by
    rw [hB, Int.sub_mul, hleft]
    push_cast
    ring
  have hdouble : (2 : Int) ^ (16 - (curr + drop)) = 2 * 2 ^ (16 - (curr + 1 + drop)) := by
    rw [← pow_succ']
    congr 1
    omega
  refine ⟨hnext, ?_⟩
  rw [show curr + 1 + drop = curr + drop + 1 by omega] at hdouble ⊢
  rw [← hnext, hdouble]
  ring

/-- The look-ahead for the size of a sub-table stops at the longest length, or where the codes
up to the chosen length, which end at `B` of the next one, reach the end `E` of the stretch. -/
theorem subTableBits_spec {c B : Nat → Nat} (drop : Nat) {E : Nat} (hmax : max ≤ 15)
    (fuel curr : Nat) (left : Int) (hle : curr + drop ≤ max) (hfuel : max ≤ curr + drop + fuel)
    (hB : ∀ l, curr + drop ≤ l → B (l + 1) = B l + c l * 2 ^ (16 - l))
    (hleft : left * 2 ^ (16 - (curr + drop)) = (E : Int) - B (curr + drop)) :
    let k := subTableBits c drop max fuel curr left
    curr ≤ k ∧ k + drop ≤ max ∧ (k + drop = max ∨ E ≤ B (k + drop + 1)) := by
  induction fuel generalizing curr left with
  | zero =>
    refine ⟨le_rfl, hle, .inl ?_⟩
    simp only [subTableBits]
    omega
  | succ fuel ih =>
    unfold subTableBits
    split
    · next hlt =>
      obtain ⟨hnext, htwice⟩ := subTableBits_left (by omega) (hB (curr + drop) le_rfl) hleft
      have hw : (0 : Int) < 2 ^ (16 - (curr + drop)) := by positivity
      simp only
      split
      · next hneg =>
        refine ⟨le_rfl, hle, .inr ?_⟩
        have := mul_nonpos_of_nonpos_of_nonneg hneg hw.le
        omega
      · next hpos =>
        obtain ⟨h1, h2, h3⟩ := ih (curr + 1) ((left - c (curr + drop)) * 2) (by omega) (by omega)
          (fun l hl => hB l (by omega)) htwice
        exact ⟨by omega, h2, h3⟩
    · next hge => exact ⟨le_rfl, hle, .inl (by omega)⟩

theorem and_mask (a n : Nat) : a &&& (1 <<< n - 1) = a % 2 ^ n := by
  rw [Nat.one_shiftLeft, Nat.and_two_pow_sub_one_eq_mod]

/-- There is a code to be entered. -/
theorem FillState.At.sym_lt (h : s.At lens max j) : s.sym < lens.length := by
  have hoff := offsets_le_length lens (s.len + 1)
  rw [offsets_succ h.pos] at hoff
  have hlt := h.lt
  have hsym := h.sym
  omega

/-- Where the codes shorter than `l` that are entered end; of the length at hand, not all are. -/
def FillState.lineEnd (lens : List Nat) (s : FillState) (l : Nat) : Nat :=
  if l = s.len then s.rhuff else codeBase (countLengths lens) l

namespace FillState.Entered

theorem lineEnd_succ (h : s.Entered type lens root max j) {l : Nat} (hl : s.len ≤ l) :
    s.lineEnd lens (l + 1) = s.lineEnd lens l + s.count l * 2 ^ (16 - l) := by
  have hpos := h.pos.pos
  unfold lineEnd
  rw [if_neg (by omega), codeBase_succ (by omega)]
  rcases Nat.eq_or_lt_of_le hl with rfl | hl
  · rw [if_pos rfl, h.pos.rhuff, h.pos.count, codePoint, Nat.add_assoc, ← Nat.add_mul,
      Nat.add_sub_cancel' h.pos.lt.le]
  · rw [if_neg (by omega), h.pos.later l hl]

/-- The code space that a sub-table begins with, at the length of its first code. -/
theorem stretch (hlen : root < s.len) (hle : s.len ≤ 15) :
    ((1 <<< (s.len - root) : Nat) : Int) * 2 ^ (16 - (s.len - root + root)) =
      ((s.rhuff + 2 ^ (16 - root) : Nat) : Int) - s.lineEnd lens (s.len - root + root) := by
  rw [Nat.sub_add_cancel hlen.le, lineEnd, if_pos rfl, Nat.one_shiftLeft]
  push_cast
  rw [← pow_add, show s.len - root + (16 - s.len) = 16 - root by omega]
  ring

theorem rev_huff (hf : Fits lens root max) (h : s.Entered type lens root max j) :
    zngBitreverse16 s.huff = s.rhuff := by
  rw [h.pos.huff, h.pos.rhuff,
    zngBitreverse16_reverse (hf.codePoint_lt h.pos.pos h.pos.le h.pos.lt)]

/-- The first code of a sub-table has no bits behind those of the root. -/
theorem huff_mod (hf : Fits lens root max) (h : s.Entered type lens root max j) (hlen : root < s.len)
    (hne : s.huff % 2 ^ root ≠ s.low) : s.huff % 2 ^ root = s.huff := by
  have hal := h.aligned hlen hne
  have hrt := hf.root_le
  have hmx := hf.max_le
  rw [h.pos.huff]
  exact Nat.mod_eq_of_lt (zngBitreverse16_lt_of_dvd hal)

theorem drop_eq (hf : Fits lens root max) (h : s.Entered type lens root max j) :
    (if s.drop = 0 then root else s.drop) = root := by
  have hrp := hf.root_pos
  rcases h.region with hr | ⟨hr, -⟩
  · rw [if_pos hr.drop]
  · rw [hr.drop, if_neg (by omega)]

/-- The part of the table at hand is the last one. -/
theorem used_eq (h : s.Entered type lens root max j) :
    s.next + 2 ^ s.curr = s.used ∧ 2 ^ root ≤ s.used := by
  rcases h.region with hr | ⟨hr, -⟩
  · refine ⟨?_, hr.used.ge⟩
    rw [hr.next, hr.curr, hr.used, Nat.zero_add]
  · exact ⟨hr.used.symm, hr.next.trans (hr.used ▸ Nat.le_add_right _ _)⟩

theorem used_lt (hf : Fits lens root max) (h : s.Entered type lens root max j) : s.used < 2 ^ 16 := by
  have hsym := h.pos.sym_lt
  have hroom := hf.room
  have hused := h.used
  have hpow := Nat.two_pow_pos (max - root)
  have hmul := Nat.mul_le_mul_right (2 ^ (max - root)) hsym.le
  omega

theorem subTable_curr (hf : Fits lens root max) (h : s.Entered type lens root max j) :
    (s.subTable root max).curr =
      subTableBits s.count root max 16 (s.len - root) ((1 <<< (s.len - root) : Nat) : Int) := by
  simp only [FillState.subTable, h.drop_eq hf]

/-- A sub-table has room for the codes that come, or goes to the longest length. -/
theorem subTable_room (hf : Fits lens root max) (h : s.Entered type lens root max j)
    (hlen : root < s.len) :
    s.len ≤ root + (s.subTable root max).curr ∧ root + (s.subTable root max).curr ≤ max ∧
      (root + (s.subTable root max).curr = max ∨ s.rhuff + 2 ^ (16 - root) ≤
        codeBase (countLengths lens) (root + (s.subTable root max).curr + 1)) := by
  have hmx := hf.max_le
  have hle := h.pos.le
  have hbits := subTableBits_spec (c := s.count) (B := s.lineEnd lens) root
    (E := s.rhuff + 2 ^ (16 - root)) hmx 16 (s.len - root) ((1 <<< (s.len - root) : Nat) : Int)
    (by omega) (by omega) (fun l hl => h.lineEnd_succ (by omega)) (stretch hlen (by omega))
  rw [← h.subTable_curr hf] at hbits
  obtain ⟨hlow, hhigh, hroom⟩ := hbits
  refine ⟨by omega, by omega, hroom.imp (fun hend => by omega) fun hend => ?_⟩
  rw [lineEnd, if_neg (by omega)] at hend
  rw [Nat.add_comm root]
  exact hend

/-- The entry of the root that leads to a new sub-table. -/
theorem subTable_link (hf : Fits lens root max) (h : s.Entered type lens root max j)
    (hlen : root < s.len) : (s.subTable root max).table (s.huff % 2 ^ root) =
      { op := (s.subTable root max).curr, bits := root, val := s.used } := by
  have hmx := hf.max_le
  obtain ⟨-, hhigh, -⟩ := h.subTable_room hf hlen
  have hentry : (s.subTable root max).table (s.huff % 2 ^ root) =
      { op := (s.subTable root max).curr % 256, bits := root % 256,
        val := (s.next + 1 <<< s.curr) % 2 ^ 16 } := by
    simp only [FillState.subTable, and_mask, Function.update_self]
  rw [hentry, Nat.mod_eq_of_lt (show (s.subTable root max).curr < 256 by omega),
    Nat.mod_eq_of_lt (show root < 256 by omega), Nat.one_shiftLeft, h.used_eq.1,
    Nat.mod_eq_of_lt (h.used_lt hf)]

/-- The codes before have other bits in the root. -/
theorem before_ne (hf : Fits lens root max) (h : s.Entered type lens root max j) (hlen : root < s.len)
    (hne : s.huff % 2 ^ root ≠ s.low) {l i v : Nat} (hl : 1 ≤ l)
    (hi : i < countLengths lens l) (hb : l < s.len ∨ l = s.len ∧ i < j) (hv : StartsWith lens l i v) :
    v % 2 ^ root ≠ s.huff % 2 ^ root := by
  have hmx := hf.max_le
  have hrt := hf.root_le
  have hle := h.pos.le
  rw [startsWith_iff (by omega) (hf.codePoint_lt hl (by omega) hi)] at hv
  have hbefore := codePoint_before hl hi hb
  rw [← h.pos.rhuff] at hbefore
  intro heq
  rw [mod_two_pow_eq_iff_reverse _ _ (by omega), h.rev_huff hf] at heq
  obtain ⟨q, hq⟩ := h.aligned hlen hne
  have hw := Nat.two_pow_pos (16 - root)
  rw [hq, Nat.mul_div_cancel_left _ hw] at heq
  have hdiv := Nat.mul_div_le (zngBitreverse16 v) (2 ^ (16 - root))
  rw [heq] at hdiv
  omega

/-- A new sub-table starts where the code line has not been. -/
theorem subTable (hf : Fits lens root max) (h : s.Entered type lens root max j) (hlen : root < s.len)
    (hne : s.huff % 2 ^ root ≠ s.low) : (s.subTable root max).Ready type lens root max j := by
  obtain ⟨hnext, hroot⟩ := h.used_eq
  obtain ⟨hlow, hhigh, hroom⟩ := h.subTable_room hf hlen
  have hsnext : (s.subTable root max).next = s.used := by
    simp only [FillState.subTable, Nat.one_shiftLeft, hnext]
  have hslow : (s.subTable root max).low = s.huff % 2 ^ root := by
    simp only [FillState.subTable, and_mask]
  have hsused : (s.subTable root max).used = s.used + 2 ^ (s.subTable root max).curr := by
    simp only [FillState.subTable, Nat.one_shiftLeft]
  have hother : ∀ i, i ≠ s.huff % 2 ^ root → (s.subTable root max).table i = s.table i := by
    intro i hi
    simp only [FillState.subTable, and_mask, Function.update_of_ne hi]
  have hreads : ∀ l i v, 1 ≤ l → i < countLengths lens l → l < s.len ∨ l = s.len ∧ i < j →
      StartsWith lens l i v → (s.subTable root max).Reads root max v l
        (entryFor type (symbolAt lens l i)) := by
    intro l i v hl hi hb hv
    have hv' := h.before_ne hf hlen hne hl hi hb hv
    have hmodlt := Nat.mod_lt s.huff (Nat.two_pow_pos root)
    rcases h.reads l i v hl hi hb hv with ⟨h1, h2⟩ | ⟨h1, curr, next, h2, h3, h4, h5, h6, h7⟩
    · exact .inl ⟨h1, (hother _ hv').trans h2⟩
    · refine .inr ⟨h1, curr, next, (hother _ hv').trans h2, h3, h4, h5, ?_, ?_⟩
      · rw [hother, h6]
        have hle := Nat.le_add_right next (v / 2 ^ root % 2 ^ curr)
        omega
      · rw [hsnext, ← hnext]
        rcases h7 with h7 | ⟨rfl, rfl, -⟩
        · exact .inl (h7.trans (Nat.le_add_right _ _))
        · exact .inl le_rfl
  refine ⟨⟨h.pos.pos, h.pos.le, h.pos.lt, h.pos.rhuff, h.pos.huff, h.pos.sym, h.pos.count,
    h.pos.later⟩, hreads, .inr ⟨⟨?_, ?_, by omega, ?_, ?_, ?_, ?_⟩, hlen, hlow, hslow.symm⟩, ?_⟩
  · simp only [FillState.subTable, h.drop_eq hf]
  · rw [hsnext]
    exact hroot
  · rw [hslow]
    exact Nat.mod_lt _ (Nat.two_pow_pos root)
  · rw [hsused, hsnext]
  · rw [hslow, hsnext, h.subTable_link hf hlen]
  · rw [hslow, h.huff_mod hf hlen hne, h.rev_huff hf]
    exact hroom
  · rw [hsused]
    have hused := h.used
    have hpow := Nat.pow_le_pow_right (n := 2) (by norm_num)
      (show (s.subTable root max).curr ≤ max - root by omega)
    change _ ≤ 2 ^ root + s.sym * 2 ^ (max - root)
    omega

end FillState.Entered

/-- Without a new sub-table the code goes to the part of the table at hand. -/
theorem FillState.Entered.stay (hf : Fits lens root max) (h : s.Entered type lens root max j)
    (hn : ¬ (root < s.len ∧ s.huff % 2 ^ root ≠ s.low)) : s.Ready type lens root max j := by
  have hmx := hf.max_le
  have hrt := hf.root_le
  have hused := h.used
  refine ⟨h.pos, h.reads, ?_, (Nat.le_add_right _ _).trans hused⟩
  rcases h.region with hr | ⟨hr, hlen⟩
  · refine .inl ⟨hr, ?_⟩
    by_contra hlen
    have hmod := Nat.mod_lt s.huff (Nat.two_pow_pos root)
    have hpow := Nat.pow_le_pow_right (n := 2) (by norm_num) (show root ≤ 15 by omega)
    have hlow := hr.low
    exact hn ⟨by omega, by omega⟩
  · have hlow : s.huff % 2 ^ root = s.low := by
      by_contra hne
      exact hn ⟨hlen, hne⟩
    refine .inr ⟨hr, hlen, ?_, hlow⟩
    rcases hr.room with hroom | hroom
    · exact h.pos.le.trans hroom.ge
    · by_contra hcap
      have hbase := codeBase_mono (c := countLengths lens)
        (show root + s.curr + 1 ≤ s.len by omega)
      have hrev : zngBitreverse16 s.huff = s.rhuff := by
        rw [h.pos.huff, h.pos.rhuff,
          zngBitreverse16_reverse (hf.codePoint_lt h.pos.pos h.pos.le h.pos.lt)]
      have hle : zngBitreverse16 s.low + 2 ^ (16 - root) ≤ s.rhuff := by
        rw [h.pos.rhuff, codePoint]
        exact (hroom.trans hbase).trans (Nat.le_add_right _ _)
      rw [← Nat.mod_eq_of_lt hr.low, mod_two_pow_eq_iff_reverse _ _ (by omega), hrev] at hlow
      have := Nat.div_le_div_right (c := 2 ^ (16 - root)) hle
      rw [Nat.add_div_right _ (Nat.two_pow_pos _)] at this
      omega

/-- The loop ends by entering the last code in the part of the table made for it. -/
theorem fillTable_spec (hf : Fits lens root max) (fuel : Nat) (h : s.Ready type lens root max j)
    (hfuel : lens.length ≤ s.sym + fuel) {t : FillState}
    (ht : fillTable type lens (sortSymbols lens) root max fuel s = .ok t) :
    ∃ s₀ j₀, FillState.Ready type lens root max s₀ j₀ ∧ s₀.len = max ∧
      j₀ + 1 = countLengths lens max ∧ t = s₀.write type (sortSymbols lens) := by
  induction fuel generalizing s j with
  | zero =>
    have hsym := h.pos.sym_lt
    omega
  | succ fuel ih =>
    have henter := h.enter hf
    unfold fillTable at ht
    rcases hr : s.enter type lens (sortSymbols lens) max with ⟨last, s'⟩
    rw [hr] at henter ht
    rcases henter with ⟨h1, h2, h3, h4⟩ | ⟨h1, j', h2, h3⟩
    · dsimp only at h1 h2
      subst h1
      simp only [Except.ok.injEq] at ht
      exact ⟨s, j, h, h3, h4, by rw [← ht, h2]⟩
    · dsimp only at h1 h2 h3
      subst h1
      simp only [and_mask] at ht
      split at ht
      · next hc =>
        split at ht
        · cases ht
        · refine ih (h2.subTable hf hc.1 hc.2) ?_ ht
          change lens.length ≤ s'.sym + fuel
          omega
      · next hc => exact ih (h2.stay hf hc) (by omega) ht

end Loop

/-- Where a table answers the bits `v`, which begin with a code of length `l`. -/
def DecodeTable.Finds (t : DecodeTable) (v l : Nat) (here : Nat → Code) : Prop :=
  (l ≤ t.bits ∧ t.entry (v % 2 ^ t.bits) = here l) ∨
  (t.bits < l ∧ ∃ curr next,
    t.entry (v % 2 ^ t.bits) = { op := curr, bits := t.bits, val := next } ∧
    l ≤ t.bits + curr ∧ t.bits + curr ≤ maxBits ∧
    t.entry (next + v / 2 ^ t.bits % 2 ^ curr) = here (l - t.bits))

/-- What `zng_inflate_table` builds: every code word is found, and either every bit string
begins with one, or the only code has length one and its sibling is marked invalid. -/
structure DecodeTable.Decodes (type : CodeType) (lens : List Nat) (bits : Nat) (t : DecodeTable) :
    Prop where
  bits_pos : 1 ≤ t.bits
  bits_le : t.bits ≤ maxBits
  finds : ∀ l i v, 1 ≤ l → l ≤ maxBits → i < countLengths lens l → StartsWith lens l i v →
    t.Finds v l (entryFor type (symbolAt lens l i))
  total : ∀ v, (∃ l i, 1 ≤ l ∧ l ≤ maxBits ∧ i < countLengths lens l ∧ StartsWith lens l i v) ∨
    (t.bits = 1 ∧ t.entry (v % 2 ^ t.bits) = invalidCode 1)
  short : maxLength (countLengths lens) maxBits ≤ bits →
    maxLength (countLengths lens) maxBits ≤ t.bits

theorem zngBitreverse16_zero : zngBitreverse16 0 = 0 := by decide

theorem codeBase_max {lens : List Nat} (h : maxLength (countLengths lens) maxBits ≠ 0) :
    codeBase (countLengths lens) (maxBits + 1) =
      codeBase (countLengths lens) (maxLength (countLengths lens) maxBits + 1) := by
  have hmax := maxLength_spec _ h
  refine codeBase_gap (by omega) (by omega) fun k hk hk' => ?_
  by_contra h0
  have := le_maxLength (n := maxBits) (by omega) (by omega) h0
  omega

/-- The state before the loop. -/
theorem start_ready {type : CodeType} {lens : List Nat} {root max mn : Nat}
    (h1 : 1 ≤ mn) (h2 : mn ≤ max) (h3 : mn ≤ root)
    (hc : countLengths lens mn ≠ 0) (hz : ∀ l, 1 ≤ l → l < mn → countLengths lens l = 0) :
    FillState.Ready type lens root max
      { rhuff := 0, huff := 0, sym := 0, len := mn, next := 0, curr := root, drop := 0,
        low := 2 ^ 32 - 1, used := 1 <<< root, count := countLengths lens,
        table := fun _ => default } 0 where
  pos := {
    pos := h1
    le := h2
    lt := Nat.pos_of_ne_zero hc
    rhuff := by
      simp only [codePoint]
      rw [codeBase_gap le_rfl h1 hz]
      simp [codeBase]
    huff := zngBitreverse16_zero.symm
    sym := by
      simp only
      rw [offsets_gap le_rfl h1 hz]
      rfl
    count := rfl
    later := fun _ _ => rfl }
  reads := by
    intro l i v hl hi hb
    dsimp only at hb
    have := hz l hl (by omega)
    omega
  region := .inl ⟨⟨rfl, rfl, rfl, rfl, Nat.one_shiftLeft root⟩, h3⟩
  used := by simp [Nat.one_shiftLeft]

theorem FillState.Reads.finds {root max v l : Nat} {s : FillState} {here : Nat → Code}
    (hmax : max ≤ maxBits) (h : s.Reads root max v l here) :
    DecodeTable.Finds { entry := s.table, bits := root, used := s.used } v l here := by
  rcases h with ⟨h1, h2⟩ | ⟨h1, curr, next, h2, h3, h4, -, h5, -⟩
  · exact .inl ⟨h1, h2⟩
  · exact .inr ⟨h1, curr, next, h2, h3, h4.trans hmax, h5⟩

/-- Where the finished loop leaves off: a complete code leaves `huff` zero, a single code of
length one leaves its sibling. -/
theorem fillTable_last {type : CodeType} {lens : List Nat} {root max left : Nat}
    {s t : FillState} (hf : Fits lens root max) (h0 : max ≠ 0)
    (hmax : maxLength (countLengths lens) maxBits = max)
    (hleft : codesLeft (countLengths lens) maxBits = some left) (hone : 0 < left → max = 1)
    (hs : s.Ready type lens root max 0) (hsym : s.sym = 0)
    (ht : fillTable type lens (sortSymbols lens) root max lens.length s = .ok t) :
    (left = 0 ∧ t.huff = 0) ∨
    (0 < left ∧ max = 1 ∧ root = 1 ∧ countLengths lens 1 = 1 ∧ t.huff = 1 ∧ t.next = 0 ∧
      t.len - t.drop = 1) := by
  obtain ⟨s₀, j₀, hr, hlen, hj, rfl⟩ := fillTable_spec hf lens.length hs (by omega) ht
  have hmx := hf.max_le
  have hrhuff := hr.pos.write_rhuff type hf
  have hend : codePoint (countLengths lens) s₀.len (j₀ + 1) =
      codeBase (countLengths lens) (maxBits + 1) := by
    rw [codeBase_max (by omega), hmax, hlen, hj, codeBase_succ (by omega), codePoint]
  have hline := codesLeft_codeBase (n := maxBits) (by decide) hleft
  simp only [show 16 - maxBits = 1 from rfl, pow_one] at hline
  rw [hend] at hrhuff
  have hhuff : (s₀.write type (sortSymbols lens)).huff =
      zngBitreverse16 (codeBase (countLengths lens) (maxBits + 1)) := by
    rw [← zngBitreverse16_mod, ← hrhuff]
    rfl
  rcases Nat.eq_zero_or_pos left with rfl | hpos
  · left
    rw [hhuff, show codeBase (countLengths lens) (maxBits + 1) = 2 ^ 16 by omega]
    decide
  · right
    obtain rfl := hone hpos
    have hroot : root = 1 := Nat.le_antisymm hf.root_le hf.root_pos
    subst hroot
    have hc1 : codeBase (countLengths lens) (maxBits + 1) = countLengths lens 1 * 2 ^ 15 := by
      rw [codeBase_max (by omega), hmax]
      simp [codeBase]
    have hcount : countLengths lens 1 = 1 := by
      have := hf.last
      omega
    rw [hc1, hcount] at hhuff
    obtain ⟨hreg, -⟩ : s₀.InRoot 1 ∧ s₀.len ≤ 1 := by
      rcases hr.region with h | ⟨-, h, -⟩
      · exact h
      · omega
    refine ⟨hpos, rfl, rfl, hcount, by rw [hhuff]; decide, hreg.next, ?_⟩
    change s₀.len - s₀.drop = 1
    rw [hlen, hreg.drop]

/-- What a table that is returned went through. -/
theorem zngInflateTable_ok {type : CodeType} {lens : List Nat} {bits : Nat} {t : DecodeTable}
    (h : zngInflateTable type lens bits = .ok t) :
    (maxLength (countLengths lens) maxBits = 0 ∧
      t = { entry := Function.update (Function.update (fun _ => default) 0 (invalidCode 1)) 1
              (invalidCode 1), bits := 1, used := 2 }) ∨
    ∃ max mn root left s, max ≠ 0 ∧ maxLength (countLengths lens) maxBits = max ∧
      minLength (countLengths lens) max maxBits 1 = mn ∧ (min bits max).max mn = root ∧
      codesLeft (countLengths lens) maxBits = some left ∧
      ¬(0 < left ∧ (type = .codes ∨ max ≠ 1)) ∧
      fillTable type lens (sortSymbols lens) root max lens.length
        { rhuff := 0, huff := 0, sym := 0, len := mn, next := 0, curr := root, drop := 0,
          low := 2 ^ 32 - 1, used := 1 <<< root, count := countLengths lens,
          table := fun _ => default } = .ok s ∧
      t = { entry := if s.huff ≠ 0 then
              Function.update s.table (s.next + s.huff) (invalidCode (s.len - s.drop)) else s.table,
            bits := root, used := s.used } := by
  simp only [zngInflateTable] at h
  split at h
  · next h0 => exact .inl ⟨h0, (Except.ok.inj h).symm⟩
  · next h0 =>
    split at h
    · cases h
    · next left hleft =>
      split at h
      · cases h
      · next hcomplete =>
        split at h
        · cases h
        · split at h
          · cases h
          · next s hfill =>
            exact .inr ⟨_, _, _, left, s, h0, rfl, rfl, rfl, hleft, hcomplete, hfill,
              (Except.ok.inj h).symm⟩

/-- The finished loop, with the entry that completes a single code. -/
theorem fillTable_decodes {type : CodeType} {lens : List Nat} {root max left bits : Nat}
    {s t : FillState} (hf : Fits lens root max) (h0 : max ≠ 0)
    (hmax : maxLength (countLengths lens) maxBits = max)
    (hleft : codesLeft (countLengths lens) maxBits = some left) (hone : 0 < left → max = 1)
    (hshort : max ≤ bits → max ≤ root) (hs : s.Ready type lens root max 0) (hsym : s.sym = 0)
    (ht : fillTable type lens (sortSymbols lens) root max lens.length s = .ok t) :
    DecodeTable.Decodes type lens bits
      { entry := if t.huff ≠ 0 then
          Function.update t.table (t.next + t.huff) (invalidCode (t.len - t.drop)) else t.table
        bits := root, used := t.used } := by
  have hlast := fillTable_last hf h0 hmax hleft hone hs hsym ht
  obtain ⟨s₀, j₀, hr, hlen, hj, rfl⟩ := fillTable_spec hf lens.length hs (by omega) ht
  have hmx := hf.max_le
  have hreads : ∀ l i v, 1 ≤ l → l ≤ maxBits → i < countLengths lens l → StartsWith lens l i v →
      (s₀.write type (sortSymbols lens)).Reads root max v l (entryFor type (symbolAt lens l i)) := by
    intro l i v h1 h2 hi hv
    have hle := le_maxLength h1 h2 (c := countLengths lens) (by omega)
    refine hr.reads_write hf l i v h1 hi ?_ hv
    rcases Nat.lt_or_eq_of_le (hmax ▸ hle) with hlt | rfl
    · exact .inl (by omega)
    · exact .inr ⟨hlen.symm, by omega⟩
  rcases hlast with ⟨rfl, hz⟩ | ⟨-, rfl, rfl, hcount, hhuff, hnext, hinv⟩
  · simp only [hz, ne_eq, not_true_eq_false, ↓reduceIte]
    refine ⟨hf.root_pos, hf.root_le.trans hmx, fun l i v h1 h2 hi hv =>
      (hreads l i v h1 h2 hi hv).finds hmx, fun v => .inl ?_, fun h => hmax ▸ hshort (hmax ▸ h)⟩
    have hline := codesLeft_codeBase (n := maxBits) (by decide) hleft
    simp only [show 16 - maxBits = 1 from rfl, pow_one] at hline
    have hv := zngBitreverse16_lt v
    obtain ⟨l, i, h1, h2, hi, h3, h4⟩ := exists_codePoint (c := countLengths lens)
      (m := maxBits) (p := zngBitreverse16 v) (by omega)
    exact ⟨l, i, h1, h2, hi, (startsWith_iff (by simp only [maxBits] at h2; omega) (by omega)).mpr
      ⟨h3, h4⟩⟩
  · simp only [hhuff, hnext, hinv, ne_eq, one_ne_zero, not_false_eq_true, ↓reduceIte]
    have hpoint : codePoint (countLengths lens) 1 0 = 0 := by simp [codePoint, codeBase]
    have hstart : ∀ v, StartsWith lens 1 0 v ↔ v % 2 = 0 := by
      intro v
      rw [StartsWith, hpoint, zngBitreverse16_zero]
      simp
    refine ⟨le_rfl, by simp [maxBits], fun l i v h1 h2 hi hv => ?_, fun v => ?_, fun _ => hmax.le⟩
    · have hle := le_maxLength h1 h2 (c := countLengths lens) (by omega)
      obtain rfl : l = 1 := by omega
      obtain rfl : i = 0 := by omega
      have hfind := (hreads 1 0 v h1 h2 hi hv).finds hmx
      rw [hstart] at hv
      rcases hfind with ⟨hb, hfind⟩ | ⟨hb, -⟩
      · refine .inl ⟨hb, ?_⟩
        simp only [pow_one, hv] at hfind ⊢
        rw [Function.update_of_ne (by omega), hfind]
      · exact absurd hb (by simp)
    · rcases Nat.mod_two_eq_zero_or_one v with hv | hv
      · exact .inl ⟨1, 0, le_rfl, by decide, by omega, (hstart v).mpr hv⟩
      · exact .inr ⟨rfl, by simp [hv]⟩

theorem zngInflateTable_decodes {type : CodeType} {lens : List Nat} {bits : Nat}
    {t : DecodeTable} (hb : bits ≤ maxBits)
    (hroom : lens.length * 2 ^ (maxBits - bits) < 2 ^ 15)
    (h : zngInflateTable type lens bits = .ok t) : t.Decodes type lens bits := by
  have hmaxspec := maxLength_spec (c := countLengths lens) maxBits
  have hlemax := fun l h1 h2 h3 => le_maxLength (c := countLengths lens) (n := maxBits) (l := l) h1 h2 h3
  rcases zngInflateTable_ok h with ⟨h0, rfl⟩ |
    ⟨max, mn, root, left, s, h0, hmax, hmin, hroot, hleft, hcomplete, hfill, rfl⟩
  · refine ⟨le_rfl, by decide, fun l i v h1 h2 hi _ => ?_, fun v => .inr ⟨rfl, ?_⟩, fun _ => by omega⟩
    · have := hlemax l h1 h2 (by omega)
      omega
    · rcases Nat.mod_two_eq_zero_or_one v with hv | hv <;> simp [hv]
  · rw [hmax] at hmaxspec
    obtain ⟨hm1, hm2, hm3⟩ := hmaxspec h0
    obtain ⟨hn1, hn2, hn3, hn4⟩ := minLength_spec (c := countLengths lens) maxBits 1 (by omega) hm1 hm3
    rw [hmin] at hn1 hn2 hn3 hn4
    have hr1 : mn ≤ root := hroot ▸ Nat.le_max_right _ _
    have hr2 : min bits max ≤ root := hroot ▸ Nat.le_max_left _ _
    have hr3 : root ≤ max := hroot ▸ Nat.max_le.mpr ⟨Nat.min_le_right _ _, hn2⟩
    have hline := codesLeft_codeBase (n := maxBits) (by decide) hleft
    rw [codeBase_max (by omega), hmax] at hline
    have hf : Fits lens root max := by
      refine ⟨hm2, by omega, hr3, hm3, by omega, ?_⟩
      have hp1 : 2 ^ root ≤ 2 ^ 15 := Nat.pow_le_pow_right (by norm_num) (hr3.trans hm2)
      have hp2 := Nat.mul_le_mul_left lens.length (Nat.pow_le_pow_right (n := 2)
        (by norm_num) (show max - root ≤ maxBits - bits by omega))
      omega
    have hshort : max ≤ bits → max ≤ root := by omega
    refine fillTable_decodes hf h0 hmax hleft (fun hpos => ?_) hshort
      (start_ready hn1 hn2 hr1 hn3 hn4) rfl hfill
    by_contra hne
    exact hcomplete ⟨hpos, .inr hne⟩

/-- Codes of at least `mn` bits take at most their share of the code line each. -/
theorem codeBase_le {c : Nat → Nat} (mn : Nat) (hmin : ∀ l, 1 ≤ l → l < mn → c l = 0) (m : Nat) :
    codeBase c m ≤ offsets c m * 2 ^ (16 - mn) := by
  induction m with
  | zero => simp [codeBase]
  | succ m ih =>
    rcases Nat.eq_zero_or_pos m with rfl | hm
    · simp [codeBase]
    · rw [codeBase_succ hm, offsets_succ hm, Nat.add_mul]
      refine Nat.add_le_add ih ?_
      rcases Nat.lt_or_ge m mn with hlt | hge
      · simp [hmin m hm hlt]
      · exact Nat.mul_le_mul_left _ (Nat.pow_le_pow_right (by norm_num) (by omega))

/-- The shortest codes of a complete code have no more bits than could number all symbols. -/
theorem minLength_le {lens : List Nat} {bits : Nat} (hlen : lens.length < 2 ^ bits)
    (hmax : maxLength (countLengths lens) maxBits ≠ 0)
    (hleft : codesLeft (countLengths lens) maxBits = some 0) :
    minLength (countLengths lens) (maxLength (countLengths lens) maxBits) maxBits 1 ≤ bits := by
  obtain ⟨hm1, hm2, hm3⟩ := maxLength_spec (c := countLengths lens) maxBits hmax
  obtain ⟨hn1, hn2, hn3, hn4⟩ := minLength_spec (c := countLengths lens) maxBits 1 (by omega) hm1 hm3
  generalize minLength (countLengths lens) (maxLength (countLengths lens) maxBits) maxBits 1 = mn at *
  by_contra hmn
  -- longer codes would be more than there are symbols
  have hline := codesLeft_codeBase (n := maxBits) (by decide) hleft
  have hle := codeBase_le (c := countLengths lens) mn
    (fun l hl hl' => by simpa using hn4 l hl hl') (maxBits + 1)
  have hoff := Nat.mul_le_mul_right (2 ^ (16 - mn)) (offsets_le_length lens (maxBits + 1))
  have hmn15 : mn ≤ 15 := hn2.trans hm2
  have hpow : 2 ^ 16 = 2 ^ mn * 2 ^ (16 - mn) := by
    rw [← Nat.pow_add]
    congr 1
    omega
  have hmul : 2 ^ mn * 2 ^ (16 - mn) ≤ lens.length * 2 ^ (16 - mn) := by omega
  have hfew := Nat.le_of_mul_le_mul_right hmul (Nat.two_pow_pos _)
  have hbits := Nat.pow_le_pow_right (n := 2) (by norm_num) (not_le.mp hmn).le
  omega

/-- The root index gets no more bits than requested when these could number all symbols. -/
theorem zngInflateTable_bits {type : CodeType} {lens : List Nat} {bits : Nat} {t : DecodeTable}
    (h1 : 1 ≤ bits) (hlen : lens.length < 2 ^ bits)
    (h : zngInflateTable type lens bits = .ok t) : t.bits ≤ bits := by
  rcases zngInflateTable_ok h with ⟨-, rfl⟩ |
    ⟨max, mn, root, left, s, h0, hmax, hmin, hroot, hleft, hcomplete, -, rfl⟩
  · exact h1
  · subst hmax hmin hroot
    refine Nat.max_le.mpr ⟨Nat.min_le_left _ _, ?_⟩
    rcases Nat.eq_zero_or_pos left with rfl | hpos
    · exact minLength_le hlen h0 hleft
    · -- a single code, of length one
      have hone : maxLength (countLengths lens) maxBits = 1 := by
        by_contra hne
        exact hcomplete ⟨hpos, .inr hne⟩
      have hmax := maxLength_spec (c := countLengths lens) maxBits h0
      have hmin := minLength_spec (c := countLengths lens) maxBits 1 (by omega) hmax.1 hmax.2.2
      omega

end ZlibNg
