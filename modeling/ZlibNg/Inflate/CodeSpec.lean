import ZlibNg.Inflate.CaseSpec

/-! The cases that look up codes: what they need of the tables, and that the tables the decoder
builds are of that kind. -/
namespace ZlibNg
open BitProg

/-- Numbers with the low bits of one and the high bits of another. -/
theorem splice_mod (v w root : Nat) : (v % 2 ^ root + 2 ^ root * w) % 2 ^ root = v % 2 ^ root := by
  rw [Nat.add_mul_mod_self_left, Nat.mod_mod]

theorem splice_div (v w root : Nat) : (v % 2 ^ root + 2 ^ root * w) / 2 ^ root = w := by
  rw [Nat.add_mul_div_left _ _ (Nat.two_pow_pos _),
    Nat.div_eq_of_lt (Nat.mod_lt _ (Nat.two_pow_pos _)), Nat.zero_add]

/-- The entry that the bits `v` select, after the bits of a first-level code that leads to it. -/
def select (entry : Nat → Code) (root v : Nat) : Nat × Code :=
  let last := entry (v % 2 ^ root)
  if 1 ≤ last.op ∧ last.op ≤ 15 then (root, entry (last.val + v / 2 ^ root % 2 ^ last.op))
  else (0, last)

/-- The bits that the selected code takes. -/
def selectBits (entry : Nat → Code) (root v : Nat) : Nat :=
  (select entry root v).1 + (select entry root v).2.codeBits

theorem mod_shift (h a b : Nat) : (h % 2 ^ (a + b)) >>> a = h / 2 ^ a % 2 ^ b := by
  rw [Nat.shiftRight_eq_div_pow, Nat.pow_add, Nat.mod_mul_right_div_self]

section Select
variable {P : Nat → Code → Prop} {entry : Nat → Code} {root : Nat}

/-- The sub-table that a link selects, whatever the bits after the link are. -/
theorem TwoLevel.sub (h : TwoLevel P entry root) (hr : root ≤ 15)
    (hP : ∀ l c, l ≤ 15 → P l c → c.op = 0 ∨ 16 ≤ c.op) {v curr next : Nat}
    (hv : entry (v % 2 ^ root) = { op := curr, bits := root, val := next }) (h1 : 1 ≤ curr)
    (h15 : curr ≤ 15) :
    (∀ w, ∃ l, 1 ≤ l ∧ l ≤ curr ∧ P l (entry (next + w % 2 ^ curr))) ∧
    Stable (fun w => entry (next + w % 2 ^ curr)) Code.codeBits := by
  refine ⟨fun w => ?_, fun w w' hw => ?_⟩
  · have hlook := h.look (v % 2 ^ root + 2 ^ root * w)
    rw [splice_mod, splice_div, hv] at hlook
    rcases hlook with ⟨l, -, hl, hl'⟩ | ⟨curr', next', he, -, -, hs⟩
    · have hop := hP l _ (by omega) hl'
      simp only at hop
      omega
    · obtain ⟨rfl, rfl⟩ : curr = curr' ∧ next = next' := by simpa using he
      exact hs
  · have hst := h.stableSub (v % 2 ^ root + 2 ^ root * w) (v % 2 ^ root + 2 ^ root * w') curr next
      (by rw [splice_mod, hv]) h1 h15 (by rw [splice_mod, splice_mod])
    rw [splice_div, splice_div] at hst
    exact hst hw

/-- A code is found at once, or through a link. -/
theorem TwoLevel.select_cases (h : TwoLevel P entry root) (hr : root ≤ 15)
    (hP : ∀ l c, l ≤ 15 → P l c → c.op = 0 ∨ 16 ≤ c.op) (v : Nat) :
    (¬ (1 ≤ (entry (v % 2 ^ root)).op ∧ (entry (v % 2 ^ root)).op ≤ 15) ∧
      ∃ l, 1 ≤ l ∧ l ≤ root ∧ P l (entry (v % 2 ^ root))) ∨
    ∃ curr next, entry (v % 2 ^ root) = { op := curr, bits := root, val := next } ∧
      1 ≤ curr ∧ root + curr ≤ 15 ∧
      ∃ l, 1 ≤ l ∧ l ≤ curr ∧ P l (entry (next + v / 2 ^ root % 2 ^ curr)) := by
  rcases h.look v with ⟨l, h1, hl, hp⟩ | ⟨curr, next, he, h1, h15, l, hl1, hlc, hp⟩
  · have := hP l _ (by omega) hp
    exact .inl ⟨by omega, l, h1, hl, hp⟩
  · exact .inr ⟨curr, next, he, h1, h15, l, hl1, hlc, hp⟩

theorem TwoLevel.select_shape (h : TwoLevel P entry root) (hr : root ≤ 15)
    (hP : ∀ l c, l ≤ 15 → P l c → c.op = 0 ∨ 16 ≤ c.op) (v : Nat) :
    ∃ l, 1 ≤ l ∧ (select entry root v).1 + l ≤ 15 ∧ P l (select entry root v).2 := by
  rcases h.select_cases hr hP v with ⟨hd, l, h1, hl, hp⟩ | ⟨curr, next, he, h1, h15, l, hl1, hlc, hp⟩
  · exact ⟨l, h1, by simp only [select, if_neg hd]; omega, by simpa only [select, if_neg hd] using hp⟩
  · have hc : 1 ≤ curr ∧ curr ≤ 15 := by omega
    refine ⟨l, hl1, ?_, ?_⟩
    · simp only [select, he, if_pos hc]; omega
    · simpa only [select, he, if_pos hc] using hp

end Select

/-- Look up a code and drop its bits; `link` is the test for a first-level entry. -/
def lookupCode (link : Nat → Prop) [DecidablePred link] (table : Nat → Code) (root : Nat) :
    BitProg Code (Nat × Code) := do
  let last ← lookup (fun hold => table (hold % 2 ^ root)) Code.codeBits
  if link last.op then do
    let here ← InflateState.lookupSub table last
    dropBits last.codeBits
    dropBits here.codeBits
    return (last.codeBits, here)
  else do
    dropBits last.codeBits
    return (0, last)

/-- The test tells links from the entries of shape `P`. -/
structure LinkTest (P : Nat → Code → Prop) (link : Nat → Prop) : Prop where
  linked : ∀ op, 1 ≤ op → op ≤ 15 → link op
  direct : ∀ l c, l ≤ 15 → P l c → ¬ link c.op
  op : ∀ l c, l ≤ 15 → P l c → c.op = 0 ∨ 16 ≤ c.op
  size : ∀ l c, l ≤ 15 → P l c → c.codeBits ≤ l + 11

theorem lenLink : LinkTest LenEntry fun op => op ≠ 0 ∧ op &&& 0xf0 = 0 :=
  ⟨fun op h1 h15 => ⟨by omega, (link_op h15).2.2.2.2⟩,
    fun l c hl hp => by have := hp.direct hl; tauto,
    fun l c hl hp => le_of_direct (hp.direct hl), fun l c hl hp => (hp.le_codeBits hl).2⟩

theorem distLink : LinkTest DistEntry fun op => op &&& 0xf0 = 0 :=
  ⟨fun op h1 h15 => (link_op h15).2.2.2.2, fun l c hl hp => (hp.direct hl).2,
    fun l c hl hp => le_of_direct (.inr (hp.direct hl).2),
    fun l c hl hp => by have := hp.codeBits_eq hl; omega⟩

theorem link_codeBits {curr : Nat} (root next : Nat) (h : curr ≤ 15) :
    Code.codeBits { op := curr, bits := root, val := next } = root := by
  simp [Code.codeBits, link_op h]

section LookupCode
variable {P : Nat → Code → Prop} {link : Nat → Prop} [DecidablePred link] {entry : Nat → Code}
  {root : Nat}

theorem lookupCode_runStream (h : TwoLevel P entry root) (hr : root ≤ 15) (hP : LinkTest P link)
    (u : Nat) (v : BitStream) : (lookupCode link entry root).runStream u v =
      if selectBits entry root v.val ≤ v.len then
        some (select entry root v.val, v.drop (selectBits entry root v.val)) else none := by
  simp only [lookupCode, lookup, InflateState.lookupSub, dropBits, pure_eq, ret_bind, find_bind,
    skip_bind, runStream, runStream_ite]
  rcases h.select_cases hr hP.op v.val with ⟨hd, l, -, hl, hp⟩ | ⟨curr, next, he, h1, h15, -⟩
  · simp only [selectBits, select, if_neg hd, if_neg (hP.direct l _ (by omega) hp), Nat.zero_add]
  · have hc : 1 ≤ curr ∧ curr ≤ 15 := by omega
    simp only [selectBits, select, he, if_pos hc, if_pos (hP.linked curr hc.1 hc.2),
      link_codeBits root next hc.2, (link_op hc.2).2.1, mod_shift, BitStream.drop_drop]
    split
    · rfl
    · rw [if_neg (by omega)]

theorem lookupCode_wp (h : TwoLevel P entry root) (hr : root ≤ 15) (hP : LinkTest P link)
    {b : Nat} {L : Nat → Prop} {Q : Nat × Code → Nat → Nat → Prop}
    (hL : ∀ b', b ≤ b' → b' < 26 → L b')
    (hQ : ∀ c l b', 1 ≤ l → c.1 + l ≤ 15 → P l c.2 → b' ≤ b ∨ b' < 8 → Q c b' 0) :
    (lookupCode link entry root).wp true b 0 L Q := by
  simp only [lookupCode, lookup, InflateState.lookupSub, dropBits, pure_eq, ret_bind, find_bind,
    skip_bind, wp, wp_ite, true_and]
  refine ⟨h.stable, fun v b' h1 h2 _ => hL b' h1 ?_, fun v b' h1 h2 h3 h4 => ?_⟩
  · rcases h.select_cases hr hP.op v with ⟨-, l, -, hl, hp⟩ | ⟨curr, next, he, hc1, hc15, -⟩
    · have := hP.size l _ (by omega) hp
      omega
    · rw [he, link_codeBits root next (by omega)] at h2
      omega
  · rcases h.select_cases hr hP.op v with ⟨-, l, hl1, hl, hp⟩ | ⟨curr, next, he, hc1, hc15, -⟩
    · refine ⟨fun hd => absurd hd (hP.direct l _ (by omega) hp), fun _ => ⟨h2, by omega, ?_⟩⟩
      rw [show max 0 (entry (v % 2 ^ root)).codeBits - (entry (v % 2 ^ root)).codeBits = 0 by omega]
      exact hQ (0, _) l _ hl1 (by dsimp only; omega) hp (by omega)
    · have hcb := link_codeBits root next (show curr ≤ 15 by omega)
      rw [he, hcb] at h2 h4
      simp only [he, hcb, (link_op (show curr ≤ 15 by omega)).2.1, mod_shift]
      obtain ⟨hlook, hst⟩ := h.sub hr hP.op he hc1 (by omega)
      refine ⟨fun _ => ⟨fun w w' hw => ?_, fun w b'' h1' h2' _ => hL b'' (by omega) ?_,
        fun w b'' h1' h2' h3' h4' => ?_⟩, fun hd => absurd (hP.linked curr hc1 (by omega)) hd⟩
      · refine hst (w / 2 ^ root) (w' / 2 ^ root) ?_
        exact ((mod_two_pow_add_iff w w' root _).mp hw).2
      · obtain ⟨l, hl1, hl, hp⟩ := hlook (w / 2 ^ root)
        have := hP.size l _ (by omega) hp
        omega
      · obtain ⟨l, hl1, hl, hp⟩ := hlook (w / 2 ^ root)
        refine ⟨by omega, by omega, by omega, by omega, ?_⟩
        generalize entry (next + w / 2 ^ root % 2 ^ curr) = here at *
        rw [show max (max 0 root) (root + here.codeBits) - root - here.codeBits = 0 by omega]
        exact hQ (root, here) l _ hl1 (by dsimp only; omega) hp (by omega)

end LookupCode

theorem TablesOk.lenbits_le {s : InflateState} (h : TablesOk s) : s.lenbits ≤ 15 := by
  have := h.lenbits
  simp only [maxLenRootBits] at this
  omega

theorem TablesOk.distbits_le {s : InflateState} (h : TablesOk s) : s.distbits ≤ 15 := by
  have := h.distbits
  omega

namespace InflateState
variable {s : InflateState} {b : Nat}

theorem caseLen_eq (s : InflateState) : s.caseLen =
    (lookupCode (fun op => op ≠ 0 ∧ op &&& 0xf0 = 0) s.lencode s.lenbits).map
      fun c => s.afterLen c.2 (c.1 + c.2.codeBits) := by
  rw [← bind_pure]
  simp [caseLen, lookupCode, lookupSub, lookup, dropBits]

theorem caseDist_eq (s : InflateState) : s.caseDist =
    (lookupCode (fun op => op &&& 0xf0 = 0) s.distcode s.distbits).map
      fun c => s.afterDist c.2 (c.1 + c.2.codeBits) := by
  rw [← bind_pure]
  simp [caseDist, lookupCode, lookupSub, lookup, dropBits]

/-- `LEN` on a stream: the selected code, if it is all there. -/
theorem caseLen_runStream (hs : TablesOk s) (u : Nat) (v : BitStream) :
    s.caseLen.runStream u v = if selectBits s.lencode s.lenbits v.val ≤ v.len then
      some (s.afterLen (select s.lencode s.lenbits v.val).2 (selectBits s.lencode s.lenbits v.val),
        v.drop (selectBits s.lencode s.lenbits v.val)) else none := by
  rw [caseLen_eq, runStream_map, lookupCode_runStream hs.len hs.lenbits_le lenLink]
  split <;> rfl

theorem caseDist_runStream (hs : TablesOk s) (u : Nat) (v : BitStream) :
    s.caseDist.runStream u v = if selectBits s.distcode s.distbits v.val ≤ v.len then
      some (s.afterDist (select s.distcode s.distbits v.val).2
        (selectBits s.distcode s.distbits v.val),
        v.drop (selectBits s.distcode s.distbits v.val)) else none := by
  rw [caseDist_eq, runStream_map, lookupCode_runStream hs.dist hs.distbits_le distLink]
  split <;> rfl

theorem afterLen_base (s : InflateState) {l : Nat} (hl : l ≤ 15) (extra val back : Nat) :
    s.afterLen { op := 16 + l, bits := l + extra, val := val } back =
      { s with back := back, length := val, extra := extra, mode := .lenext } := by
  simp [afterLen, base_op hl, Code.codeExtra]

theorem afterLen_eob (s : InflateState) (l back : Nat) :
    s.afterLen { op := 96, bits := l, val := 0 } back =
      { s with back := -1, length := 0, mode := .type } := by
  simp [afterLen]

theorem afterLen_invalid (s : InflateState) {op : Nat} (h : op = 64 ∨ op = 75 ∨ op = 199)
    (bits back : Nat) : s.afterLen { op := op, bits := bits, val := 0 } back =
      { s with back := back, length := 0 }.setBad "invalid literal/length code" := by
  rcases h with rfl | rfl | rfl <;> simp [afterLen]

theorem afterDist_base (s : InflateState) {l : Nat} (hl : l ≤ 15) (extra val back : Nat) :
    s.afterDist { op := 16 + l, bits := l + extra, val := val } back =
      { s with back := s.back + back, offset := val, extra := extra, mode := .distext } := by
  simp [afterDist, base_op hl, Code.codeExtra]

theorem afterDist_invalid (s : InflateState) (l back : Nat) :
    s.afterDist { op := 64, bits := l, val := 0 } back =
      { s with back := s.back + back }.setBad "invalid distance code" := by
  simp [afterDist]

theorem afterLen_fine (ht : TablesOk s) {l : Nat} {here : Code} (hl : l ≤ 15)
    (he : LenEntry l here) (hb : b ≤ 32) (back : Nat) : Fine (s.afterLen here back) b 0 := by
  cases he with
  | lit val h => exact ⟨⟨⟨ht.1, ht.2, ht.3, ht.4⟩, h⟩, hb, .inr rfl⟩
  | base extra val he hv hm =>
    rw [afterLen_base s hl]
    exact ⟨⟨⟨ht.1, ht.2, ht.3, ht.4⟩, hv, hm⟩, hb, .inr rfl⟩
  | eob =>
    rw [afterLen_eob]
    exact ⟨trivial, hb, .inr rfl⟩
  | invalid op bits ho =>
    rw [afterLen_invalid s ho]
    exact fine_bad ..

theorem afterDist_fine (ht : TablesOk s) (h3 : 3 ≤ s.length ∧ s.length ≤ 258) {l : Nat} {here : Code}
    (hl : l ≤ 15) (he : DistEntry l here) (hb : b ≤ 32) (back : Nat) :
    Fine (s.afterDist here back) b 0 := by
  cases he with
  | base extra val he hv hm =>
    rw [afterDist_base s hl]
    exact ⟨⟨⟨ht.1, ht.2, ht.3, ht.4⟩, h3, hv, hm⟩, hb, .inr rfl⟩
  | invalid =>
    rw [afterDist_invalid]
    exact fine_bad ..

theorem caseLen_wp (hm : s.mode = .len) (hs : s.Ok) (hb : s.BitsOk b) :
    s.caseLen.wp true b 0 s.BitsOk Fine := by
  simp only [Ok, hm] at hs
  simp only [BitsOk, hm] at hb
  rw [caseLen_eq, wp_map]
  refine lookupCode_wp hs.len hs.lenbits_le lenLink (fun b' _ h => ?_) fun c l b' h1 hl hp hb' => ?_
  · simp only [BitsOk, hm]
    omega
  · exact afterLen_fine hs (by omega) hp (by omega) _

theorem caseDist_wp (hm : s.mode = .dist) (hs : s.Ok) (hb : s.BitsOk b) :
    s.caseDist.wp true b 0 s.BitsOk Fine := by
  simp only [Ok, hm] at hs
  simp only [BitsOk, hm] at hb
  rw [caseDist_eq, wp_map]
  refine lookupCode_wp hs.1.dist hs.1.distbits_le distLink (fun b' _ h => ?_)
    fun c l b' h1 hl hp hb' => ?_
  · simp only [BitsOk, hm]
    omega
  · exact afterDist_fine hs.1 hs.2 (by omega) hp (by omega) _

theorem clearLens_apply (lens : Nat → Nat) (is : List Nat) (i : Nat) :
    clearLens lens is i = if i ∈ is then 0 else lens i := by
  induction is generalizing lens with
  | nil => simp [clearLens]
  | cons j is ih =>
    rw [clearLens, ih, Function.update_apply]
    by_cases hj : i = j <;> by_cases hi : i ∈ is <;> simp [hj, hi]

/-- All code length code lengths are three-bit numbers once the rest has been cleared. -/
theorem clearLens_lt {lens : Nat → Nat} {n : Nat} (h : ∀ k < n, lens (order.getD k 0) < 8) {i : Nat}
    (hi : i < 19) : clearLens lens (order.drop n) i < 8 := by
  rw [clearLens_apply]
  split
  · omega
  · next hmem =>
    obtain ⟨k, hk, rfl⟩ : ∃ k < 19, order.getD k 0 = i := by
      have hperm : ∀ i < 19, ∃ k < 19, order.getD k 0 = i := by decide
      exact hperm i hi
    refine h k ?_
    by_contra hge
    refine hmem (List.mem_drop_iff_getElem.mpr ⟨k - n, ?_, ?_⟩)
    · simp only [order, List.length_cons, List.length_nil]
      omega
    · rw [List.getD_eq_getElem _ _ (by simpa [order] using hk)]
      congr 1
      omega

theorem codesOk_of_table {lens : List Nat} {t : DecodeTable} (hlen : lens.length = 19)
    (hlt : ∀ l ∈ lens, l < 8) (h : zngInflateTable .codes lens 7 = .ok t)
    (hs : s.lencode = t.entry ∧ s.lenbits = t.bits) : CodesOk s := by
  have hd := zngInflateTable_decodes (by decide) (by rw [hlen]; decide) h
  have hbits := zngInflateTable_bits (by decide) (by rw [hlen]; decide) h
  have hmax : ∀ l, 1 ≤ l → countLengths lens l ≠ 0 → l ≤ t.bits := by
    intro l h1 hc
    have hmem : l ∈ lens := List.count_pos_iff.mp (Nat.pos_of_ne_zero hc)
    have hl8 := hlt l hmem
    have hle := le_maxLength (n := maxBits) h1 (by simp only [maxBits]; omega) hc
    refine hle.trans (hd.short ?_)
    rcases Nat.eq_zero_or_pos (maxLength (countLengths lens) maxBits) with h0 | hpos
    · omega
    · have hm := (maxLength_spec (c := countLengths lens) maxBits (by omega)).2.2
      have := hlt _ (List.count_pos_iff.mp (Nat.pos_of_ne_zero hm))
      omega
  have hlook : ∀ v, ∃ l, 1 ≤ l ∧ l ≤ t.bits ∧ CodesEntry l (t.entry (v % 2 ^ t.bits)) ∧
      ∀ w, v % 2 ^ l = w % 2 ^ l → t.entry (v % 2 ^ t.bits) = t.entry (w % 2 ^ t.bits) := by
    intro v
    rcases hd.total v with ⟨l, i, h1, h2, hi, hv⟩ | ⟨hb, hv⟩
    · have hle := hmax l h1 (by omega)
      have hfind : ∀ w, StartsWith lens l i w →
          t.entry (w % 2 ^ t.bits) = entryFor .codes (symbolAt lens l i) l := by
        intro w hw
        rcases hd.finds l i w h1 h2 hi hw with ⟨-, he⟩ | ⟨hlt', -⟩
        · exact he
        · omega
      have hsym := (sortSymbols_spec lens h1 hi).1
      refine ⟨l, h1, hle, ?_, fun w hw => ?_⟩
      · rw [hfind v hv]
        exact entryFor_codes (show symbolAt lens l i ≤ 18 by simp only [symbolAt]; omega)
      · rw [hfind v hv, hfind w (hv.of_mod hw)]
    · refine ⟨1, le_rfl, hb.ge, hv ▸ .invalid, fun w hw => ?_⟩
      rw [hb, hw]
  rw [← hs.1, ← hs.2] at hlook
  refine ⟨fun v => ?_, fun v w hvw => ?_, by omega⟩
  · obtain ⟨l, h1, hl, hc, -⟩ := hlook v
    exact ⟨l, h1, hl, hc⟩
  · obtain ⟨l, -, -, hc, hw⟩ := hlook v
    dsimp only at hvw ⊢
    rw [hc.bits_eq.1] at hvw
    exact hw w hvw

theorem caseLenlens_wp (hm : s.mode = .lenlens) (hs : s.Ok) (hb : s.BitsOk b) :
    s.caseLenlens.wp true b 0 s.BitsOk Fine := by
  simp only [Ok, hm] at hs
  obtain ⟨hnlen, hndist, hncode, hhave, hlens⟩ := hs
  simp only [BitsOk, hm] at hb
  simp only [caseLenlens, needBits, bits, dropBits, pure_eq, ret_bind, need_bind, peek_bind,
    skip_bind, wp_ite, wp, true_and, BitsOk, hm]
  refine ⟨fun h => ⟨fun b' h1 h2 h3 => by omega, fun b' h1 h2 h3 h4 => ⟨by omega, fun v hv =>
    ⟨by omega, by omega, ?_⟩⟩⟩, fun h => ?_⟩
  · refine ⟨?_, ?_, .inr (by omega)⟩
    · simp only [Ok]
      refine ⟨hnlen, hndist, hncode, by omega, fun k hk => ?_⟩
      rw [Function.update_apply]
      split
      · omega
      · next hne => exact hlens k (by
          rcases Nat.lt_or_eq_of_le (Nat.le_of_lt_succ hk) with hlt | rfl
          · exact hlt
          · exact absurd rfl hne)
    · simp only [BitsOk]
      omega
  · split
    · exact fine_bad ..
    · next t ht =>
      refine ⟨⟨hnlen, hndist, codesOk_of_table (by simp) ?_ ht ⟨rfl, rfl⟩⟩, hb, .inr rfl⟩
      intro l hl
      obtain ⟨i, hi, rfl⟩ := List.mem_map.mp hl
      exact clearLens_lt hlens (List.mem_range.mp hi)

theorem repeatLens_fine (hm : s.mode = .codelens) (hs : s.Ok) (hb : b ≤ 32) (len copy : Nat) :
    Fine (s.repeatLens len copy) b 0 := by
  simp only [Ok, hm] at hs
  unfold repeatLens
  split
  · exact fine_bad ..
  · simp only [Fine, Ok, BitsOk, hm]
    exact ⟨⟨hs.1, hs.2.1, ⟨hs.2.2.1, hs.2.2.2, hs.2.2.3⟩⟩, hb, by simp⟩

theorem lens_twoLevel {lens : List Nat} {t : DecodeTable} (hlen : lens.length ≤ 286)
    (h : zngInflateTable .lens lens maxLenRootBits = .ok t) :
    TwoLevel LenEntry t.entry t.bits ∧ t.bits ≤ maxLenRootBits := by
  refine ⟨?_, zngInflateTable_bits (by decide) (by simp only [maxLenRootBits]; omega) h⟩
  refine (zngInflateTable_decodes (by decide)
    (by simp only [maxBits, maxLenRootBits]; omega) h).twoLevel
    (fun l c hl hp => ⟨(hp.le_codeBits hl).1, lenLink.op l c hl hp⟩)
    (fun symbol l hs hl => entryFor_lens (by omega) hl) (.invalid 64 1 (.inl rfl) le_rfl (by omega))

theorem dists_twoLevel {lens : List Nat} {t : DecodeTable} (hlen : lens.length ≤ 30)
    (h : zngInflateTable .dists lens 9 = .ok t) :
    TwoLevel DistEntry t.entry t.bits ∧ t.bits ≤ 9 := by
  refine ⟨?_, zngInflateTable_bits (by decide) (by omega) h⟩
  refine (zngInflateTable_decodes (by decide) (by simp only [maxBits]; omega) h).twoLevel
    (fun l c hl hp => ⟨(hp.codeBits_eq hl).ge, distLink.op l c hl hp⟩)
    (fun symbol l hs hl => entryFor_dists (by omega) hl) .invalid

theorem buildTables_fine (hm : s.mode = .codelens) (hs : s.Ok) (hb : b ≤ 32) :
    Fine s.buildTables b 0 := by
  simp only [Ok, hm] at hs
  unfold buildTables
  split
  · exact fine_bad ..
  · split
    · exact fine_bad ..
    · next t ht =>
      have hlens := lens_twoLevel (by simpa using hs.1) ht
      dsimp only
      split
      · exact fine_bad ..
      · next t' ht' =>
        have hdists := dists_twoLevel (by simpa using hs.2.1) ht'
        exact ⟨⟨hlens.1, hlens.2, hdists.1, hdists.2⟩, hb, .inr rfl⟩

theorem caseCodelens_wp (hm : s.mode = .codelens) (hs : s.Ok) (hb : s.BitsOk b) :
    s.caseCodelens.wp true b 0 s.BitsOk Fine := by
  have hs' := hs
  simp only [Ok, hm] at hs'
  obtain ⟨hnlen, hndist, hcodes⟩ := hs'
  have hbits : ∀ v, (s.lencode (v % 2 ^ s.lenbits)).bits ≤ 7 := by
    intro v
    obtain ⟨l, -, hl, hc⟩ := hcodes.look v
    have := hcodes.lenbits
    have := hc.bits_eq.1
    omega
  simp only [BitsOk, hm] at hb
  simp only [caseCodelens, lookup, needBits, bits, dropBits, pure_eq, ret_bind, need_bind,
    peek_bind, skip_bind, find_bind, wp_ite, wp, true_and, BitsOk, hm]
  refine ⟨fun _ => ⟨hcodes.stable, fun v b' _ h _ => ?_, fun v b' h1 h2 h3 h4 => ?_⟩,
    fun _ => buildTables_fine hm hs hb⟩
  · have := hbits v
    omega
  · have hv := hbits v
    generalize s.lencode (v % 2 ^ s.lenbits) = here at h2 h4 hv ⊢
    have hfine : ∀ (len copy b' u : Nat), b' ≤ 32 → u = 0 → Fine (s.repeatLens len copy) b' u :=
      fun len copy b' u hb' hu => hu ▸ repeatLens_fine hm hs hb' len copy
    refine ⟨fun _ => ⟨h2, by omega, ?_⟩, fun _ => ⟨fun _ => ⟨fun _ _ _ _ => by omega,
      fun b'' _ _ _ _ => ⟨by omega, by omega, fun _ => fine_bad .., fun _ => ⟨by omega, fun w _ =>
      ⟨by omega, by omega, hfine _ _ _ _ (by omega) (by omega)⟩⟩⟩⟩,
      fun _ => ⟨fun _ => ⟨fun _ _ _ _ => by omega, fun b'' _ _ _ _ => ⟨by omega, by omega, by omega,
      fun w _ => ⟨by omega, by omega, hfine _ _ _ _ (by omega) (by omega)⟩⟩⟩,
      fun _ => ⟨fun _ _ _ _ => by omega, fun b'' _ _ _ _ => ⟨by omega, by omega, by omega, fun w _ =>
      ⟨by omega, by omega, hfine _ _ _ _ (by omega) (by omega)⟩⟩⟩⟩⟩⟩
    simp only [Fine, Ok, BitsOk]
    exact ⟨⟨hnlen, hndist, ⟨hcodes.1, hcodes.2, hcodes.3⟩⟩, by omega, .inr (by omega)⟩

/-- The program of a case that is one; `STORED` and `CHECK` do something before theirs. -/
def bitCase (s : InflateState) : Option CaseProg :=
  match s.mode with
  | .head => some s.caseHead
  | .flags => some s.caseFlags
  | .time => some s.caseTime
  | .os => some s.caseOs
  | .exlen => some s.caseExlen
  | .hcrc => some s.caseHcrc
  | .dictid => some s.caseDictid
  | .type | .typedo => some s.caseTypedo
  | .table => some s.caseTable
  | .lenlens => some s.caseLenlens
  | .codelens => some s.caseCodelens
  | .len => some s.caseLen
  | .lenext => some s.caseLenext
  | .dist => some s.caseDist
  | .distext => some s.caseDistext
  | .length => some s.caseLength
  | _ => none

/-- Every case leaves a state that is right for its mode. -/
theorem bitCase_wp {p : CaseProg} (hp : s.bitCase = some p) (hs : s.Ok) (hb : s.BitsOk b) :
    p.wp true b 0 s.BitsOk Fine := by
  unfold bitCase at hp
  split at hp <;> simp only [Option.some.injEq, reduceCtorEq] at hp <;> subst hp
  case h_1 hm => exact caseHead_wp hm hb
  case h_2 hm => exact caseFlags_wp hm hb
  case h_3 hm => exact caseTime_wp hm hs hb
  case h_4 hm => exact caseOs_wp hm hs hb
  case h_5 hm => exact caseExlen_wp hm hs hb
  case h_6 hm => exact caseHcrc_wp hm hb
  case h_7 hm => exact caseDictid_wp hm hs hb
  case h_8 hm => exact caseTypedo_wp (.inl hm) hb
  case h_9 hm => exact caseTypedo_wp (.inr hm) hb
  case h_10 hm => exact caseTable_wp hm hb
  case h_11 hm => exact caseLenlens_wp hm hs hb
  case h_12 hm => exact caseCodelens_wp hm hs hb
  case h_13 hm => exact caseLen_wp hm hs hb
  case h_14 hm => exact caseLenext_wp hm hs hb
  case h_15 hm => exact caseDist_wp hm hs hb
  case h_16 hm => exact caseDistext_wp hm hs hb
  case h_17 hm => exact caseLength_wp hm hb

end InflateState
end ZlibNg
