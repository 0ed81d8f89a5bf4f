import ZlibNg.Inflate.TreeFill

/-! The loop invariant of `zng_inflate_table`: the symbols entered so far, in canonical
order, are found in the table built so far. -/
namespace ZlibNg

/-- Symbol of the `j`-th code of length `l`. -/
def symbolAt (lens : List Nat) (l j : Nat) : Nat :=
  sortSymbols lens (offsets (countLengths lens) l + j)

/-- The bits `v` begin with the `j`-th code word of length `l`. -/
def StartsWith (lens : List Nat) (l j v : Nat) : Prop :=
  v % 2 ^ l = zngBitreverse16 (codePoint (countLengths lens) l j) % 2 ^ l

theorem startsWith_iff {lens : List Nat} {l j v : Nat} (hl : l ≤ 16)
    (hp : codePoint (countLengths lens) l j < 2 ^ 16) :
    StartsWith lens l j v ↔ codePoint (countLengths lens) l j ≤ zngBitreverse16 v ∧
      zngBitreverse16 v < codePoint (countLengths lens) l j + 2 ^ (16 - l) := by
  have hw : 0 < 2 ^ (16 - l) := Nat.two_pow_pos _
  obtain ⟨q, hq⟩ := dvd_codePoint (c := countLengths lens) (j := j) hl le_rfl
  rw [StartsWith, mod_two_pow_eq_iff_reverse _ _ hl, zngBitreverse16_reverse hp, hq,
    Nat.mul_div_cancel_left _ hw, Nat.div_eq_iff hw, Nat.mul_comm q]
  constructor <;> rintro ⟨h1, h2⟩ <;> exact ⟨by omega, by omega⟩

theorem mod_two_pow_add_iff (a b d e : Nat) :
    a % 2 ^ (d + e) = b % 2 ^ (d + e) ↔
      a % 2 ^ d = b % 2 ^ d ∧ a / 2 ^ d % 2 ^ e = b / 2 ^ d % 2 ^ e := by
  rw [Nat.pow_add, Nat.mod_mul, Nat.mod_mul]
  constructor
  · intro h
    have ha := Nat.mod_lt a (Nat.two_pow_pos d)
    have hb := Nat.mod_lt b (Nat.two_pow_pos d)
    have hm := congrArg (· % 2 ^ d) h
    simp only [Nat.add_mul_mod_self_left, Nat.mod_mod] at hm
    rw [hm] at h
    exact ⟨hm, Nat.eq_of_mul_eq_mul_left (Nat.two_pow_pos d) (Nat.add_left_cancel h)⟩
  · rintro ⟨h1, h2⟩
    rw [h1, h2]

/-- The slots an entry is replicated to are those with its index bits. -/
theorem slot_iff {x h c d : Nat} (hx : x < 2 ^ c) (hh : h < 2 ^ d) :
    (h ≤ x ∧ x < h + 2 ^ c ∧ 2 ^ d ∣ x - h) ↔ x % 2 ^ d = h := by
  constructor
  · rintro ⟨h1, -, q, hq⟩
    obtain rfl : x = h + 2 ^ d * q := by omega
    rw [Nat.add_mul_mod_self_left, Nat.mod_eq_of_lt hh]
  · intro h'
    have hle := Nat.mod_le x (2 ^ d)
    refine ⟨by omega, by omega, ?_⟩
    rw [← h']
    exact Nat.dvd_sub_mod x

section Loop
variable {type : CodeType} {lens : List Nat} {root max : Nat}

/-- A code of length `l` that starts the bits `v` is looked up to `here`, through the part of
the table that is finished or the sub-table at hand. -/
def FillState.Reads (root max : Nat) (s : FillState) (v l : Nat) (here : Nat → Code) : Prop :=
  (l ≤ root ∧ s.table (v % 2 ^ root) = here l) ∨
  (root < l ∧ ∃ curr next,
    s.table (v % 2 ^ root) = { op := curr, bits := root, val := next } ∧
    l ≤ root + curr ∧ root + curr ≤ max ∧ 2 ^ root ≤ next ∧
    s.table (next + v / 2 ^ root % 2 ^ curr) = here (l - root) ∧
    (next + 2 ^ curr ≤ s.next ∨ next = s.next ∧ curr = s.curr ∧ v % 2 ^ root = s.low))

/-- What `zng_inflate_table` has checked before the loop: lengths that fit the code line, and
room for one sub-table a symbol. -/
structure Fits (lens : List Nat) (root max : Nat) : Prop where
  max_le : max ≤ 15
  root_pos : 1 ≤ root
  root_le : root ≤ max
  last : countLengths lens max ≠ 0
  line : codeBase (countLengths lens) (max + 1) ≤ 2 ^ 16
  room : 2 ^ root + lens.length * 2 ^ (max - root) < 2 ^ 16

theorem Fits.codePoint_end (hf : Fits lens root max) {l j : Nat} (h1 : 1 ≤ l) (hl : l ≤ max)
    (hj : j < countLengths lens l) :
    codePoint (countLengths lens) l j + 2 ^ (16 - l) ≤ 2 ^ 16 :=
  (ZlibNg.codePoint_end h1 hj).trans ((codeBase_mono (by omega)).trans hf.line)

theorem Fits.codePoint_lt (hf : Fits lens root max) {l j : Nat} (h1 : 1 ≤ l) (hl : l ≤ max)
    (hj : j < countLengths lens l) : codePoint (countLengths lens) l j < 2 ^ 16 := by
  have := hf.codePoint_end h1 hl hj
  have := Nat.two_pow_pos (16 - l)
  omega

/-- Different codes start different bit strings. -/
theorem Fits.not_startsWith (hf : Fits lens root max) {l i l' i' v : Nat} (h1 : 1 ≤ l)
    (hi : i < countLengths lens l) (hl' : l' ≤ max) (hi' : i' < countLengths lens l')
    (hb : l < l' ∨ l = l' ∧ i < i') (h : StartsWith lens l i v) : ¬ StartsWith lens l' i' v := by
  have hmax := hf.max_le
  intro h'
  rw [startsWith_iff (by omega) (hf.codePoint_lt h1 (by omega) hi)] at h
  rw [startsWith_iff (by omega) (hf.codePoint_lt (by omega) hl' hi')] at h'
  have := codePoint_before h1 hi hb
  omega

/-- Position of the loop: the next code to enter is the `j`-th of the current length. -/
structure FillState.At (lens : List Nat) (max : Nat) (s : FillState) (j : Nat) : Prop where
  pos : 1 ≤ s.len
  le : s.len ≤ max
  lt : j < countLengths lens s.len
  rhuff : s.rhuff = codePoint (countLengths lens) s.len j
  huff : s.huff = zngBitreverse16 s.rhuff
  sym : s.sym = offsets (countLengths lens) s.len + j
  count : s.count s.len = countLengths lens s.len - j
  later : ∀ l, s.len < l → s.count l = countLengths lens l

/-- Every code before the current one is read back. -/
def FillState.ReadsBefore (type : CodeType) (lens : List Nat) (root max : Nat) (s : FillState)
    (len j : Nat) : Prop :=
  ∀ l i v, 1 ≤ l → i < countLengths lens l → (l < len ∨ l = len ∧ i < j) →
    StartsWith lens l i v → s.Reads root max v l (entryFor type (symbolAt lens l i))

/-- The part of the table being filled is the root table. -/
structure FillState.InRoot (root : Nat) (s : FillState) : Prop where
  drop : s.drop = 0
  next : s.next = 0
  curr : s.curr = root
  low : s.low = 2 ^ 32 - 1
  used : s.used = 2 ^ root

/-- The part of the table being filled is a sub-table; its last index bits are chosen so that
no longer code begins with the same bits. -/
structure FillState.InSub (lens : List Nat) (root max : Nat) (s : FillState) : Prop where
  drop : s.drop = root
  next : 2 ^ root ≤ s.next
  curr : root + s.curr ≤ max
  low : s.low < 2 ^ root
  used : s.used = s.next + 2 ^ s.curr
  link : s.table s.low = { op := s.curr, bits := root, val := s.next }
  room : root + s.curr = max ∨
    zngBitreverse16 s.low + 2 ^ (16 - root) ≤
      codeBase (countLengths lens) (root + s.curr + 1)

/-- The loop is about to enter a code into the part of the table at hand. -/
structure FillState.Ready (type : CodeType) (lens : List Nat) (root max : Nat) (s : FillState)
    (j : Nat) : Prop where
  pos : s.At lens max j
  reads : s.ReadsBefore type lens root max s.len j
  region : s.InRoot root ∧ s.len ≤ root ∨
    s.InSub lens root max ∧ root < s.len ∧ s.len ≤ root + s.curr ∧ s.huff % 2 ^ root = s.low
  used : s.used ≤ 2 ^ root + s.sym * 2 ^ (max - root)

/-- The loop has stepped to the next code, and has not yet chosen its part of the table. -/
structure FillState.Entered (type : CodeType) (lens : List Nat) (root max : Nat) (s : FillState)
    (j : Nat) : Prop where
  pos : s.At lens max j
  reads : s.ReadsBefore type lens root max s.len j
  region : s.InRoot root ∨ s.InSub lens root max ∧ root < s.len
  aligned : root < s.len → s.huff % 2 ^ root ≠ s.low → 2 ^ (16 - root) ∣ s.rhuff
  used : s.used + 2 ^ (max - root) ≤ 2 ^ root + s.sym * 2 ^ (max - root)

section Enter
variable {s : FillState} {j : Nat}

theorem FillState.At.huff_lt (hf : Fits lens root max) (h : s.At lens max j) :
    s.huff < 2 ^ s.len := by
  have := hf.max_le
  have := h.le
  rw [h.huff, h.rhuff]
  exact zngBitreverse16_lt_of_dvd (dvd_codePoint (by omega) le_rfl)

theorem FillState.At.startsWith_iff (hf : Fits lens root max) (h : s.At lens max j)
    {v : Nat} : StartsWith lens s.len j v ↔ v % 2 ^ s.len = s.huff := by
  rw [StartsWith, ← h.rhuff, ← h.huff, Nat.mod_eq_of_lt (h.huff_lt hf)]

/-- The slot of `v` is written exactly when `v` begins with the current code. -/
theorem FillState.At.slot_iff (hf : Fits lens root max) (h : s.At lens max j) {v : Nat}
    (hd : s.drop ≤ s.len) (hc : s.len - s.drop ≤ s.curr)
    (hv : v % 2 ^ s.drop = s.huff % 2 ^ s.drop) :
    (v / 2 ^ s.drop % 2 ^ s.curr) % 2 ^ (s.len - s.drop) = s.huff / 2 ^ s.drop ↔
      StartsWith lens s.len j v := by
  have hl := h.huff_lt hf
  obtain ⟨e, he⟩ := Nat.exists_eq_add_of_le hd
  have hdiv : s.huff / 2 ^ s.drop < 2 ^ e := by
    rw [Nat.div_lt_iff_lt_mul (Nat.two_pow_pos _), ← Nat.pow_add, Nat.add_comm, ← he]
    exact hl
  have hsplit := mod_two_pow_add_iff v s.huff s.drop e
  rw [← he, Nat.mod_eq_of_lt hl, Nat.mod_eq_of_lt hdiv] at hsplit
  rw [h.startsWith_iff hf, hsplit, Nat.mod_mod_of_dvd _ (Nat.pow_dvd_pow 2 hc),
    show s.len - s.drop = e by omega]
  simp only [hv, true_and]

/-- What entering a code writes. -/
theorem FillState.write_table (type : CodeType) (hf : Fits lens root max) (h : s.At lens max j)
    (hd : s.drop ≤ s.len) (hc : s.len - s.drop ≤ s.curr) (i : Nat) :
    (s.write type (sortSymbols lens)).table i =
      if s.next ≤ i ∧ i < s.next + 2 ^ s.curr ∧
          (i - s.next) % 2 ^ (s.len - s.drop) = s.huff / 2 ^ s.drop then
        entryFor type (symbolAt lens s.len j) (s.len - s.drop)
      else s.table i := by
  simp only [FillState.write]
  have hh : s.huff / 2 ^ s.drop < 2 ^ (s.len - s.drop) := by
    rw [Nat.div_lt_iff_lt_mul (Nat.two_pow_pos _), ← Nat.pow_add, Nat.sub_add_cancel hd]
    exact h.huff_lt hf
  rw [Nat.one_shiftLeft, Nat.one_shiftLeft, Nat.shiftRight_eq_div_pow,
    replicateEntry_apply _ (Nat.two_pow_pos _) (Nat.pow_dvd_pow 2 hc), h.sym, symbolAt]
  by_cases hi : s.next ≤ i
  · obtain ⟨x, rfl⟩ := Nat.exists_eq_add_of_le hi
    by_cases hx : x < 2 ^ s.curr
    · have hs := ZlibNg.slot_iff hx hh
      have e1 : s.next + x - (s.next + s.huff / 2 ^ s.drop) = x - s.huff / 2 ^ s.drop := by omega
      have e2 : s.next + x < s.next + s.huff / 2 ^ s.drop + 2 ^ s.curr ↔
          x < s.huff / 2 ^ s.drop + 2 ^ s.curr := by omega
      simp only [e1, e2, Nat.add_le_add_iff_left, hs, Nat.add_sub_cancel_left,
        Nat.add_lt_add_iff_left, hx, Nat.le_add_right, true_and]
    · rw [if_neg, if_neg (by omega)]
      rintro ⟨h1, h2, q, hq⟩
      obtain ⟨r, hr⟩ := Nat.pow_dvd_pow 2 hc
      have hx' : x = s.huff / 2 ^ s.drop + 2 ^ (s.len - s.drop) * q := by omega
      rw [hr] at h2 hx
      have hq' : r ≤ q := by
        by_contra hlt
        have := Nat.mul_le_mul_left (2 ^ (s.len - s.drop)) (show q + 1 ≤ r by omega)
        rw [Nat.mul_add] at this
        omega
      have := Nat.mul_le_mul_left (2 ^ (s.len - s.drop)) hq'
      omega
  · rw [if_neg (fun h => hi ((Nat.le_add_right _ _).trans h.1)), if_neg (fun h => hi h.1)]

/-- The current code is looked up to its symbol once it is entered. -/
theorem FillState.Ready.reads_new (hf : Fits lens root max)
    (h : s.Ready type lens root max j) {v : Nat} (hv : StartsWith lens s.len j v) :
    (s.write type (sortSymbols lens)).Reads root max v s.len
      (entryFor type (symbolAt lens s.len j)) := by
  have hv' := (h.pos.startsWith_iff hf).mp hv
  rcases h.region with ⟨hr, hlen⟩ | ⟨hr, hlen, hcap, hlow⟩
  · have hd : s.drop ≤ s.len := by rw [hr.drop]; omega
    have hc : s.len - s.drop ≤ s.curr := by rw [hr.drop, hr.curr]; omega
    have hslot := h.pos.slot_iff hf hd hc (v := v) (by simp [hr.drop, Nat.mod_one])
    refine .inl ⟨hlen, ?_⟩
    rw [write_table type hf h.pos hd hc, if_pos]
    · rw [hr.drop, Nat.sub_zero]
    · have := hslot.mpr hv
      rw [hr.drop, hr.curr] at this
      simp only [pow_zero, Nat.div_one, Nat.sub_zero] at this
      rw [hr.next, hr.curr, hr.drop]
      simp only [pow_zero, Nat.div_one, Nat.sub_zero]
      exact ⟨Nat.zero_le _, by have := Nat.mod_lt v (Nat.two_pow_pos root); omega, this⟩
  · have hd : s.drop ≤ s.len := by rw [hr.drop]; omega
    have hc : s.len - s.drop ≤ s.curr := by rw [hr.drop]; omega
    have hvlow : v % 2 ^ root = s.low := by
      rw [← hlow, ← hv', Nat.mod_mod_of_dvd _ (Nat.pow_dvd_pow 2 hlen.le)]
    have hslot := h.pos.slot_iff hf hd hc (v := v) (by rw [hr.drop, hvlow, hlow])
    have hlow' := hr.low
    have hnext := hr.next
    refine .inr ⟨hlen, s.curr, s.next, ?_, hcap, hr.curr, hr.next, ?_, .inr ⟨rfl, rfl, hvlow⟩⟩
    · rw [write_table type hf h.pos hd hc, if_neg (by omega), hvlow, hr.link]
    · rw [write_table type hf h.pos hd hc, if_pos, hr.drop]
      refine ⟨Nat.le_add_right _ _, Nat.add_lt_add_left (Nat.mod_lt _ (Nat.two_pow_pos _)) _, ?_⟩
      rw [Nat.add_sub_cancel_left]
      simpa only [hr.drop] using hslot.mpr hv

/-- Entering a code does not disturb other codes. -/
theorem FillState.Ready.reads_old (hf : Fits lens root max)
    (h : s.Ready type lens root max j) {v l : Nat} {here : Nat → Code}
    (hv : ¬ StartsWith lens s.len j v) (hr : s.Reads root max v l here) :
    (s.write type (sortSymbols lens)).Reads root max v l here := by
  have hmod := Nat.mod_lt v (Nat.two_pow_pos root)
  rcases h.region with ⟨hreg, hlen⟩ | ⟨hreg, hlen, hcap, hlow⟩
  · have hd : s.drop ≤ s.len := by rw [hreg.drop]; omega
    have hc : s.len - s.drop ≤ s.curr := by rw [hreg.drop, hreg.curr]; omega
    have hslot := h.pos.slot_iff hf hd hc (v := v) (by simp [hreg.drop, Nat.mod_one])
    have htab : (s.write type (sortSymbols lens)).table (v % 2 ^ root) = s.table (v % 2 ^ root) := by
      rw [write_table type hf h.pos hd hc, if_neg]
      rintro ⟨-, -, h'⟩
      apply hv
      rw [← hslot, hreg.curr, hreg.drop]
      simpa [hreg.next, hreg.drop] using h'
    rcases hr with ⟨hl, hr⟩ | ⟨hl, curr, next, hlink, hcap, hmx, hn, hsub, hloc⟩
    · exact .inl ⟨hl, htab.trans hr⟩
    · refine .inr ⟨hl, curr, next, htab.trans hlink, hcap, hmx, hn, ?_, hloc⟩
      rw [write_table type hf h.pos hd hc, if_neg, hsub]
      rw [hreg.next, hreg.curr]
      omega
  · have hd : s.drop ≤ s.len := by rw [hreg.drop]; omega
    have hc : s.len - s.drop ≤ s.curr := by rw [hreg.drop]; omega
    have hnext := hreg.next
    have htab : (s.write type (sortSymbols lens)).table (v % 2 ^ root) = s.table (v % 2 ^ root) := by
      rw [write_table type hf h.pos hd hc, if_neg (by omega)]
    rcases hr with ⟨hl, hr⟩ | ⟨hl, curr, next, hlink, hcap', hmx, hn, hsub, hloc⟩
    · exact .inl ⟨hl, htab.trans hr⟩
    · refine .inr ⟨hl, curr, next, htab.trans hlink, hcap', hmx, hn, ?_, hloc⟩
      rw [write_table type hf h.pos hd hc, if_neg, hsub]
      have hx := Nat.mod_lt (v / 2 ^ root) (Nat.two_pow_pos curr)
      rcases hloc with hloc | ⟨rfl, rfl, hvlow⟩
      · omega
      · have hslot := h.pos.slot_iff hf hd hc (v := v) (by rw [hreg.drop, hvlow, hlow])
        rintro ⟨-, -, h'⟩
        apply hv
        rw [← hslot, hreg.drop]
        simpa [hreg.drop] using h'

/-- With the current code written, every code up to it is read back. -/
theorem FillState.Ready.reads_write (hf : Fits lens root max)
    (h : s.Ready type lens root max j) :
    (s.write type (sortSymbols lens)).ReadsBefore type lens root max s.len (j + 1) := by
  intro l i v h1 hi hb hv
  by_cases hcur : l = s.len ∧ i = j
  · obtain ⟨rfl, rfl⟩ := hcur
    exact h.reads_new hf hv
  · have hb' : l < s.len ∨ l = s.len ∧ i < j := by omega
    exact h.reads_old hf (hf.not_startsWith h1 hi h.pos.le h.pos.lt hb' hv) (h.reads l i v h1 hi hb' hv)

theorem FillState.At.write_rhuff (type : CodeType) (hf : Fits lens root max) (h : s.At lens max j) :
    (s.write type (sortSymbols lens)).rhuff =
      codePoint (countLengths lens) s.len (j + 1) % 2 ^ 16 := by
  have h1 := h.pos
  have h2 := h.le
  have h3 := hf.max_le
  simp only [FillState.write, codePoint_succ, ← h.rhuff, Nat.shiftRight_eq_div_pow]
  rw [show (0x8000 : Nat) = 2 ^ 15 by norm_num, Nat.pow_div (by omega) (by norm_num),
    show 15 - (s.len - 1) = 16 - s.len by omega]

/-- The next length in use. -/
theorem Fits.next_length (hf : Fits lens root max) {l : Nat} (hl : l < max) :
    ∃ l', l < l' ∧ l' ≤ max ∧ countLengths lens l' ≠ 0 ∧
      ∀ k, l < k → k < l' → countLengths lens k = 0 := by
  obtain ⟨h1, h2, h3, h4⟩ := minLength_spec max (l + 1) (by omega) hl hf.last
  exact ⟨_, h1, h2, h3, fun k hk hk' => h4 k hk hk'⟩

theorem offsets_gap {c : Nat → Nat} {l l' : Nat} (h1 : 1 ≤ l) (h : l ≤ l')
    (hz : ∀ k, l ≤ k → k < l' → c k = 0) : offsets c l' = offsets c l := by
  induction l', h using Nat.le_induction with
  | base => rfl
  | succ m hm ih =>
    rw [offsets_succ (by omega), ih fun k hk hk' => hz k hk (by omega), hz m hm (by omega),
      Nat.add_zero]

theorem codeBase_gap {c : Nat → Nat} {l l' : Nat} (h1 : 1 ≤ l) (h : l ≤ l')
    (hz : ∀ k, l ≤ k → k < l' → c k = 0) : codeBase c l' = codeBase c l := by
  induction l', h using Nat.le_induction with
  | base => rfl
  | succ m hm ih =>
    rw [codeBase_succ (by omega), ih fun k hk hk' => hz k hk (by omega), hz m hm (by omega),
      Nat.zero_mul, Nat.add_zero]

/-- A step within a stretch of the code line does not leave it, unless at its end. -/
theorem div_add_of_not_dvd {a w W : Nat} (hw : 0 < w) (h1 : w ∣ a) (h2 : w ∣ W)
    (hn : ¬ W ∣ a + w) : (a + w) / W = a / W := by
  obtain ⟨q, rfl⟩ := h1
  obtain ⟨b, rfl⟩ := h2
  have he : w * q + w = w * (q + 1) := by ring
  rw [he] at hn ⊢
  rw [Nat.mul_dvd_mul_iff_left hw] at hn
  rw [Nat.mul_div_mul_left _ _ hw, Nat.mul_div_mul_left _ _ hw, Nat.succ_div, if_neg hn,
    Nat.add_zero]

/-- Between two parts of the table the code line is at a multiple of the root width. -/
theorem FillState.Ready.aligned (hf : Fits lens root max) (h : s.Ready type lens root max j)
    (hlt : codePoint (countLengths lens) s.len (j + 1) < 2 ^ 16)
    (hne : zngBitreverse16 (codePoint (countLengths lens) s.len (j + 1)) % 2 ^ root ≠ s.low) :
    2 ^ (16 - root) ∣ codePoint (countLengths lens) s.len (j + 1) := by
  have h2 := h.pos.le
  have h3 := hf.max_le
  have h4 := hf.root_le
  have hdvd := dvd_codePoint (c := countLengths lens) (l := s.len) (j := j) (by omega) le_rfl
  rcases h.region with ⟨-, hlen⟩ | ⟨-, hlen, -, hlow⟩
  · exact dvd_codePoint (by omega) hlen
  · by_contra hn
    rw [codePoint_succ] at hn
    have hdiv := div_add_of_not_dvd (Nat.two_pow_pos _) hdvd (Nat.pow_dvd_pow 2 (by omega)) hn
    rw [← codePoint_succ] at hdiv
    apply hne
    rw [← hlow, h.pos.huff, h.pos.rhuff, mod_two_pow_eq_iff_reverse _ _ (by omega),
      zngBitreverse16_reverse hlt, zngBitreverse16_reverse, hdiv]
    rw [codePoint_succ] at hlt
    omega

/-- One pass of the loop up to the choice of the next part of the table. -/
theorem FillState.Ready.enter (hf : Fits lens root max) (h : s.Ready type lens root max j) :
    let r := s.enter type lens (sortSymbols lens) max
    (r.1 = true ∧ r.2 = s.write type (sortSymbols lens) ∧ s.len = max ∧
      j + 1 = countLengths lens max) ∨
    (r.1 = false ∧ ∃ j', r.2.Entered type lens root max j' ∧ s.sym < r.2.sym) := by
  have h1 := h.pos.pos
  have h2 := h.pos.le
  have hlt := h.pos.lt
  have hpsym := h.pos.sym
  have hmx := hf.max_le
  have hrhuff := h.pos.write_rhuff type hf
  have hhuff : (s.write type (sortSymbols lens)).huff =
      zngBitreverse16 (s.write type (sortSymbols lens)).rhuff := rfl
  have hsym : (s.write type (sortSymbols lens)).sym = offsets (countLengths lens) s.len + (j + 1) := by
    simp only [FillState.write, h.pos.sym]; omega
  have hcount : (s.write type (sortSymbols lens)).count s.len = countLengths lens s.len - (j + 1) := by
    simp only [FillState.write, Function.update_self, h.pos.count]; omega
  have hlater : ∀ l, s.len < l → (s.write type (sortSymbols lens)).count l = countLengths lens l :=
    fun l hl => by
      simp only [FillState.write, Function.update_of_ne (Nat.ne_of_gt hl), h.pos.later l hl]
  have hused : (s.write type (sortSymbols lens)).used + 2 ^ (max - root) ≤
      2 ^ root + (s.write type (sortSymbols lens)).sym * 2 ^ (max - root) := by
    have := h.used
    simp only [FillState.write, Nat.succ_mul]
    omega
  have hreads := h.reads_write hf
  have hregion : (s.write type (sortSymbols lens)).InRoot root ∨
      (s.write type (sortSymbols lens)).InSub lens root max ∧ root < s.len := by
    rcases h.region with ⟨hr, -⟩ | ⟨hr, hlen, hcap, -⟩
    · exact .inl ⟨hr.drop, hr.next, hr.curr, hr.low, hr.used⟩
    · refine .inr ⟨⟨hr.drop, hr.next, hr.curr, hr.low, hr.used, ?_, hr.room⟩, hlen⟩
      have hnext := hr.next
      have hlow := hr.low
      have := write_table type hf h.pos (by rw [hr.drop]; omega)
        (by rw [hr.drop]; omega) s.low
      rw [if_neg (by omega)] at this
      exact this.trans hr.link
  simp only [FillState.enter]
  rw [show (s.write type (sortSymbols lens)).len = s.len from rfl, hcount]
  by_cases hc : countLengths lens s.len - (j + 1) = 0
  · rw [if_pos hc]
    by_cases hm : s.len = max
    · rw [if_pos hm]
      exact .inl ⟨rfl, rfl, hm, by rw [← hm]; omega⟩
    · rw [if_neg hm]
      obtain ⟨l', hl1, hl2, hl3, hz⟩ := hf.next_length (l := s.len) (by omega)
      have hoff := offsets_gap (c := countLengths lens) (l := s.len + 1) (by omega) hl1 hz
      have hbase := codeBase_gap (c := countLengths lens) (l := s.len + 1) (by omega) hl1 hz
      rw [offsets_succ h1] at hoff
      have hsym' : (s.write type (sortSymbols lens)).sym = offsets (countLengths lens) l' + 0 := by
        omega
      have hpoint : codePoint (countLengths lens) s.len (j + 1) =
          codePoint (countLengths lens) l' 0 := by
        rw [codePoint, codePoint, hbase, codeBase_succ h1, show j + 1 = countLengths lens s.len by omega]
        omega
      have hlt' := hf.codePoint_lt (by omega) hl2 (Nat.pos_of_ne_zero hl3)
      have hlen := (sortSymbols_spec lens (l := l') (j := 0) (by omega)
        (Nat.pos_of_ne_zero hl3)).2.1
      rw [← hsym'] at hlen
      rw [hpoint, Nat.mod_eq_of_lt hlt'] at hrhuff
      refine .inr ⟨rfl, 0, ?_, by simp only; omega⟩
      rw [hlen]
      refine ⟨⟨by simp only; omega, hl2, Nat.pos_of_ne_zero hl3, hrhuff, hhuff, hsym', ?_, ?_⟩, ?_, ?_, ?_, hused⟩
      · simp only [Nat.sub_zero]
        exact hlater l' hl1
      · exact fun l hl => hlater l (hl1.trans hl)
      · intro l i v hl hi hb hv
        dsimp only at hb
        refine hreads l i v hl hi ?_ hv
        rcases Nat.lt_or_ge s.len l with hgt | hle
        · exfalso
          rcases hb with hb | ⟨-, hb⟩
          · have := hz l hgt hb
            omega
          · omega
        · rcases Nat.lt_or_eq_of_le hle with hle | rfl
          · exact .inl hle
          · exact .inr ⟨rfl, by omega⟩
      · rcases hregion with hr | ⟨hr, hl⟩
        · exact .inl ⟨hr.drop, hr.next, hr.curr, hr.low, hr.used⟩
        · exact .inr ⟨⟨hr.drop, hr.next, hr.curr, hr.low, hr.used, hr.link, hr.room⟩,
            by simp only; omega⟩
      · intro _ hne
        simp only [hhuff, hrhuff] at hne ⊢
        have := h.aligned hf (by rw [hpoint]; exact hlt')
        rw [hpoint] at this
        exact this hne
  · rw [if_neg hc]
    have hlt' := hf.codePoint_lt h1 h2 (show j + 1 < countLengths lens s.len by omega)
    rw [Nat.mod_eq_of_lt hlt'] at hrhuff
    refine .inr ⟨rfl, j + 1, ?_, by dsimp only; omega⟩
    exact ⟨⟨h1, h2, by show j + 1 < countLengths lens s.len; omega, hrhuff, hhuff, hsym, hcount, hlater⟩, hreads, hregion,
      fun _ hne => by
        rw [hhuff, hrhuff] at hne
        rw [hrhuff]
        exact h.aligned hf hlt' hne, hused⟩

end Enter
end Loop
end ZlibNg
