import ZlibNg.Inflate.Enough
import ZlibNg.Inflate.CodeSpec

/-! Which vectors of code lengths `zng_inflate_table` accepts, and that the tables it builds
decode the canonical code of the lengths. -/
namespace ZlibNg

/-- The Kraft sum of the lengths in use, in units of `2 ^ -15`. -/
def kraft (lens : List Nat) : Nat :=
  ((lens.filter (· ≠ 0)).map fun len => 2 ^ (maxBits - len)).sum

/-- The lengths are those of a complete prefix code. -/
def Complete (lens : List Nat) : Prop := kraft lens = 2 ^ maxBits

def NoCodes (lens : List Nat) : Prop := ∀ len ∈ lens, len = 0

/-- A single code, of length one. -/
def SingleCode (lens : List Nat) : Prop := lens.filter (· ≠ 0) = [1]

/-- The first code of each length: shorter codes come first, and zeros are appended as the
length increases. -/
def nextCode (lens : List Nat) : Nat → Nat
  | 0 => 0
  | len + 1 => (nextCode lens len + if len = 0 then 0 else countLengths lens len) * 2

/-- The code of a symbol: integer increments for the same length, in symbol order. -/
def canonicalCode (lens : List Nat) (symbol : Nat) : Nat :=
  nextCode lens (lens.getD symbol 0) + rankOf lens symbol

/-- The bits `v`, the first one lowest, begin with the `len` bits of `code`, the highest one
first. -/
def BeginsWith (v code len : Nat) : Prop :=
  ∀ i < len, v.testBit i = code.testBit (len - 1 - i)

/-- Look the bits `v` up as for a literal, length or end-of-block code: the entry and the bits
it takes. -/
def DecodeTable.lookup (t : DecodeTable) (v : Nat) : Code × Nat :=
  let here := t.entry (v % 2 ^ t.bits)
  if here.op ≠ 0 ∧ here.op &&& 0xf0 = 0 then
    let last := here
    let lastBits := last.codeBits
    let here := t.entry (last.val + (v % 2 ^ (lastBits + (last.op &&& 15))) >>> lastBits)
    (here, lastBits + here.codeBits)
  else (here, here.codeBits)

/-- What an entry says: the symbol itself, the end of the block, or a base value with the number
of extra bits. -/
inductive Yields (type : CodeType) (symbol : Nat) (here : Code) : Prop
  | value (h : symbol + 1 < type.matchSym) (op : here.op = 0) (val : here.val = symbol)
  | endOfBlock (h : symbol + 1 = type.matchSym) (op : here.op = 32 + 64)
  | base (h : type.matchSym ≤ symbol) (op : here.op &&& 16 ≠ 0)
      (val : here.val = type.base.getD (symbol - type.matchSym) 0)
      (extra : here.codeExtra = type.extra.getD (symbol - type.matchSym) 0 &&& 15)

section Lengths
variable {lens : List Nat}

theorem codeBase_cons (x : Nat) (m : Nat) :
    codeBase (countLengths (x :: lens)) m =
      codeBase (countLengths lens) m + if 1 ≤ x ∧ x < m then 2 ^ (16 - x) else 0 := by
  induction m with
  | zero => simp [codeBase]
  | succ m ih =>
    rcases Nat.eq_zero_or_pos m with rfl | hm
    · rw [if_neg (by omega)]
      rfl
    · have hcount : countLengths (x :: lens) m = countLengths lens m + if x = m then 1 else 0 := by
        simp only [countLengths, List.count_cons, beq_iff_eq]
      rw [codeBase_succ hm, codeBase_succ hm, ih, hcount]
      by_cases hx : x = m
      · subst hx
        rw [if_neg (by omega), if_pos rfl, if_pos (by omega)]
        ring
      · rw [if_neg hx, if_congr (show (1 ≤ x ∧ x < m + 1) ↔ (1 ≤ x ∧ x < m) by omega) rfl rfl]
        ring

/-- The code line is the Kraft sum. -/
theorem codeBase_kraft (h : ∀ len ∈ lens, len ≤ maxBits) :
    codeBase (countLengths lens) (maxBits + 1) = 2 * kraft lens := by
  induction lens with
  | nil => decide
  | cons x xs ih =>
    have hx : x ≤ 15 := h x List.mem_cons_self
    rw [codeBase_cons, ih fun len hlen => h len (List.mem_cons_of_mem _ hlen)]
    rcases Nat.eq_zero_or_pos x with rfl | hpos
    · rw [if_neg (by omega)]
      simp [kraft]
    · rw [if_pos ⟨hpos, by simp only [maxBits]; omega⟩]
      have hpow : 2 ^ (16 - x) = 2 * 2 ^ (maxBits - x) := by
        rw [← Nat.pow_succ']
        congr 1
        simp only [maxBits]
        omega
      simp only [kraft, ne_eq, Nat.pos_iff_ne_zero.mp hpos, not_false_eq_true, decide_true,
        List.filter_cons_of_pos, List.map_cons, List.sum_cons, hpow]
      ring

/-- Lengths are over-subscribed when their codes do not fit on the line. -/
theorem codesLeft_eq_none {c : Nat → Nat} {n : Nat} (hn : n ≤ 15) (h : codesLeft c n = none) :
    2 ^ 16 < codeBase c (n + 1) := by
  induction n with
  | zero => exact absurd h (Option.some_ne_none _)
  | succ n ih =>
    rw [codeBase_succ (by omega)]
    cases hprev : codesLeft c n with
    | none =>
      have := ih (by omega) hprev
      omega
    | some prev =>
      have hline := codesLeft_codeBase (by omega) hprev
      simp only [codesLeft, hprev, Option.bind_some] at h
      split at h
      · next hlt =>
        have hw : prev * 2 ^ (16 - n) = prev * 2 * 2 ^ (16 - (n + 1)) := by
          rw [show 16 - n = 16 - (n + 1) + 1 by omega, Nat.pow_succ]
          ring
        have := Nat.mul_lt_mul_of_pos_right hlt (Nat.two_pow_pos (16 - (n + 1)))
        omega
      · exact absurd h (Option.some_ne_none _)

theorem maxLength_eq_zero (h : ∀ len ∈ lens, len ≤ maxBits) :
    maxLength (countLengths lens) maxBits = 0 ↔ NoCodes lens := by
  constructor
  · intro hmax len hlen
    by_contra h0
    have := le_maxLength (c := countLengths lens) (Nat.pos_of_ne_zero h0) (h len hlen)
      (List.count_pos_iff.mpr hlen).ne'
    omega
  · intro hno
    by_contra h0
    have hspec := maxLength_spec (c := countLengths lens) maxBits h0
    have := hno _ (List.count_pos_iff.mp (Nat.pos_of_ne_zero hspec.2.2))
    omega

theorem count_filter_one : (lens.filter (· ≠ 0)).count 1 = countLengths lens 1 :=
  List.count_filter (by decide)

theorem singleCode_iff (h : ∀ len ∈ lens, len ≤ maxBits) : SingleCode lens ↔
    maxLength (countLengths lens) maxBits = 1 ∧ countLengths lens 1 = 1 := by
  constructor
  · intro hs
    have hone : countLengths lens 1 = 1 := by
      rw [← count_filter_one, hs]
      rfl
    refine ⟨?_, hone⟩
    have hle := le_maxLength (c := countLengths lens) (n := maxBits) le_rfl (by decide)
      (show countLengths lens 1 ≠ 0 by omega)
    have hspec := maxLength_spec (c := countLengths lens) maxBits (by omega)
    have hmem := List.count_pos_iff.mp (Nat.pos_of_ne_zero hspec.2.2)
    have hfilter : maxLength (countLengths lens) maxBits ∈ lens.filter (· ≠ 0) :=
      List.mem_filter.mpr ⟨hmem, by simp; omega⟩
    rw [hs] at hfilter
    exact List.mem_singleton.mp hfilter
  · rintro ⟨hmax, hone⟩
    have hall : ∀ len ∈ lens.filter (· ≠ 0), len = 1 := by
      intro len hlen
      obtain ⟨hmem, hne⟩ := List.mem_filter.mp hlen
      have := le_maxLength (c := countLengths lens) (l := len)
        (Nat.pos_of_ne_zero (by simpa using hne)) (h len hmem) (List.count_pos_iff.mpr hmem).ne'
      have : len ≠ 0 := by simpa using hne
      omega
    have hrep := List.eq_replicate_of_mem hall
    have hlength : (lens.filter (· ≠ 0)).length = 1 := by
      rw [← hone, ← count_filter_one]
      exact (List.count_eq_length.mpr fun b hb => (hall b hb).symm).symm
    rw [SingleCode, hrep, hlength]
    rfl

/-- Exactly these vectors pass the checks. -/
theorem accepts_iff (type : CodeType) (h : ∀ len ∈ lens, len ≤ maxBits) : Accepts type lens ↔
    Complete lens ∨ NoCodes lens ∨ (type ≠ .codes ∧ SingleCode lens) := by
  have hkraft := codeBase_kraft h
  have hpow : 2 ^ maxBits = 2 ^ 15 := rfl
  rw [Accepts, maxLength_eq_zero h, singleCode_iff h, Complete, hpow]
  constructor
  · rintro (hno | ⟨left, hleft, hok⟩)
    · exact .inr (.inl hno)
    · have hline := codesLeft_codeBase (n := maxBits) (by decide) hleft
      rw [hkraft] at hline
      simp only [show 16 - maxBits = 1 from rfl, pow_one] at hline
      rcases Nat.eq_zero_or_pos left with rfl | hpos
      · exact .inl (by omega)
      · have hmax : maxLength (countLengths lens) maxBits = 1 := by
          by_contra hne
          exact hok ⟨hpos, .inr hne⟩
        refine .inr (.inr ⟨fun ht => hok ⟨hpos, .inl ht⟩, hmax, ?_⟩)
        have hspec := maxLength_spec (c := countLengths lens) maxBits (by omega)
        rw [codeBase_max (by omega), hmax, codeBase_succ le_rfl] at hkraft
        rw [hmax] at hspec
        simp only [codeBase] at hkraft
        omega
  · rintro (hc | hno | ⟨ht, hmax, hone⟩)
    · cases hleft : codesLeft (countLengths lens) maxBits with
      | none =>
        have := codesLeft_eq_none (by decide) hleft
        omega
      | some left =>
        have hline := codesLeft_codeBase (n := maxBits) (by decide) hleft
        simp only [show 16 - maxBits = 1 from rfl, pow_one] at hline
        exact .inr ⟨left, rfl, fun hok => by omega⟩
    · exact .inl hno
    · right
      have hbase : codeBase (countLengths lens) (maxBits + 1) = 2 ^ 15 := by
        rw [codeBase_max (by omega), hmax, codeBase_succ le_rfl, hone]
        simp [codeBase]
      cases hleft : codesLeft (countLengths lens) maxBits with
      | none =>
        have := codesLeft_eq_none (by decide) hleft
        omega
      | some left => exact ⟨left, rfl, fun hok => hok.2.elim ht fun hne => hne hmax⟩

theorem codeBase_nextCode (len : Nat) (hlen : len ≤ 16) :
    codeBase (countLengths lens) len = nextCode lens len * 2 ^ (16 - len) := by
  induction len with
  | zero => simp [codeBase, nextCode]
  | succ len ih =>
    rcases Nat.eq_zero_or_pos len with rfl | hpos
    · simp [codeBase, nextCode]
    · have hpow : 2 ^ (16 - len) = 2 * 2 ^ (16 - (len + 1)) := by
        rw [← Nat.pow_succ']
        congr 1
        omega
      rw [codeBase_succ hpos, ih (by omega), nextCode, if_neg (by omega), hpow]
      ring

/-- The codes on the code line, read from their first bit, are the canonical codes. -/
theorem startsWith_iff_beginsWith {l i v : Nat} (hl : l ≤ 16) :
    StartsWith lens l i v ↔ BeginsWith v (nextCode lens l + i) l := by
  have hpoint : codePoint (countLengths lens) l i = (nextCode lens l + i) * 2 ^ (16 - l) := by
    rw [codePoint, codeBase_nextCode l hl, Nat.add_mul]
  have hbit : ∀ k < l, (zngBitreverse16 (codePoint (countLengths lens) l i)).testBit k =
      (nextCode lens l + i).testBit (l - 1 - k) := by
    intro k hk
    rw [zngBitreverse16_testBit, hpoint, Nat.testBit_mul_two_pow, decide_eq_true (by omega),
      decide_eq_true (by omega), Bool.true_and, Bool.true_and]
    congr 1
    omega
  unfold StartsWith BeginsWith
  constructor
  · intro h k hk
    have := congrArg (fun n => n.testBit k) h
    simp only [Nat.testBit_mod_two_pow, hk, decide_true, Bool.true_and] at this
    rw [this, hbit k hk]
  · intro h
    apply Nat.eq_of_testBit_eq
    intro k
    rw [Nat.testBit_mod_two_pow, Nat.testBit_mod_two_pow]
    by_cases hk : k < l
    · rw [h k hk, hbit k hk]
    · simp [hk]

end Lengths

/-- The symbols that the decoder's vectors have. -/
theorem CodeType.Passed.yields {type : CodeType} {n bits symbol k : Nat}
    (hp : type.Passed n bits) (hs : symbol < n) (hk : k ≤ 15) :
    Yields type symbol (entryFor type symbol k) ∧ (entryFor type symbol k).codeBits = k ∧
      ¬ ((entryFor type symbol k).op ≠ 0 ∧ (entryFor type symbol k).op &&& 0xf0 = 0) := by
  have hbase : type.matchSym ≤ symbol →
      type.extra.getD (symbol - type.matchSym) 0 &&& 16 ≠ 0 →
      Yields type symbol (entryFor type symbol k) ∧ (entryFor type symbol k).codeBits = k ∧
      ¬ ((entryFor type symbol k).op ≠ 0 ∧ (entryFor type symbol k).op &&& 0xf0 = 0) := by
    intro hge hop
    obtain ⟨h1, h2, -, -, h3⟩ := base_op hk
    have hand : type.extra.getD (symbol - type.matchSym) 0 &&& 15 ≤ 15 := Nat.and_le_right
    have hent : entryFor type symbol k =
        { op := 16 + k, bits := k + (type.extra.getD (symbol - type.matchSym) 0 &&& 15),
          val := type.base.getD (symbol - type.matchSym) 0 } := by
      rw [entryFor, if_pos hge]
      simp only [combineOp_base hop hk, combineBits, Code.mk.injEq, and_true]
      exact Nat.mod_eq_of_lt (by omega)
    rw [hent]
    refine ⟨.base hge (by simp [h1]) rfl ?_, ?_, by simp [h3]⟩
    · simp only [Code.codeExtra, h1, h2]
      simp
    · simp only [Code.codeBits, h1, h2]
      simp
  have hvalue : symbol + 1 < type.matchSym →
      Yields type symbol (entryFor type symbol k) ∧ (entryFor type symbol k).codeBits = k ∧
      ¬ ((entryFor type symbol k).op ≠ 0 ∧ (entryFor type symbol k).op &&& 0xf0 = 0) := by
    intro hlt
    rw [entryFor, if_neg (by omega), if_pos hlt]
    exact ⟨.value hlt rfl rfl, by simp [Code.codeBits], by simp⟩
  cases hp with
  | codes hn => exact hvalue (by simp only [CodeType.matchSym]; omega)
  | lens hn =>
    rcases Nat.lt_trichotomy (symbol + 1) 257 with hlt | heq | hgt
    · exact hvalue hlt
    · obtain rfl : symbol = 256 := by omega
      exact ⟨.endOfBlock rfl rfl, by simp [entryFor, CodeType.matchSym, Code.codeBits],
        by simp [entryFor, CodeType.matchSym]⟩
    · have hfin : ∀ i < 29, lext.getD i 0 &&& 16 ≠ 0 := by decide
      exact hbase (by simp only [CodeType.matchSym]; omega)
        (hfin _ (by simp only [CodeType.matchSym]; omega))
  | dists hn =>
    have hfin : ∀ i < 30, dext.getD i 0 &&& 16 ≠ 0 := by decide
    exact hbase (Nat.zero_le _) (hfin _ (by simp only [CodeType.matchSym]; omega))

/-- A code word that the table has is looked up through the root table and its sub-table. -/
theorem DecodeTable.Finds.lookup {type : CodeType} {n bits symbol v l : Nat} {t : DecodeTable}
    (hp : type.Passed n bits) (hs : symbol < n) (hl : l ≤ maxBits)
    (h : t.Finds v l (entryFor type symbol)) :
    Yields type symbol (t.lookup v).1 ∧ (t.lookup v).2 = l := by
  rcases h with ⟨-, he⟩ | ⟨hlt, curr, next, he, h1, h2, h3⟩
  · obtain ⟨hy, hc, hd⟩ := hp.yields hs hl
    simp only [DecodeTable.lookup, he, if_neg hd]
    exact ⟨hy, hc⟩
  · have h15 : maxBits = 15 := rfl
    obtain ⟨hy, hc, -⟩ := hp.yields hs (show l - t.bits ≤ 15 by omega)
    have hop := link_op (show curr ≤ 15 by omega)
    have hlink : curr ≠ 0 ∧ curr &&& 0xf0 = 0 := ⟨by omega, hop.2.2.2.2⟩
    simp only [DecodeTable.lookup, he, if_pos hlink, link_codeBits t.bits next
      (show curr ≤ 15 by omega), hop.2.1, mod_shift, h3]
    exact ⟨hy, by omega⟩

/-- The table decodes the canonical code of `lens`: a code word yields its symbol and takes its
length, any other bits yield the invalid code marker. -/
structure DecodeTable.Canonical (type : CodeType) (lens : List Nat) (t : DecodeTable) : Prop where
  word : ∀ symbol < lens.length, lens.getD symbol 0 ≠ 0 → ∀ v,
    BeginsWith v (canonicalCode lens symbol) (lens.getD symbol 0) →
      Yields type symbol (t.lookup v).1 ∧ (t.lookup v).2 = lens.getD symbol 0
  unassigned : ∀ v, (∀ symbol < lens.length, lens.getD symbol 0 ≠ 0 →
    ¬ BeginsWith v (canonicalCode lens symbol) (lens.getD symbol 0)) →
      (t.lookup v).1 = invalidCode 1

theorem DecodeTable.Decodes.canonical {type : CodeType} {lens : List Nat} {bits : Nat}
    {t : DecodeTable} (hp : type.Passed lens.length bits) (hl : ∀ len ∈ lens, len ≤ maxBits)
    (h : t.Decodes type lens bits) : t.Canonical type lens where
  word := by
    intro symbol hs h0 v hv
    have hlen : lens.getD symbol 0 ≤ maxBits := by
      rw [List.getD_eq_getElem _ _ hs]
      exact hl _ (List.getElem_mem hs)
    have hsym : symbolAt lens (lens.getD symbol 0) (rankOf lens symbol) = symbol :=
      sortSymbols_posOf hs h0
    have hfind := h.finds _ _ v (Nat.pos_of_ne_zero h0) hlen (rankOf_lt_count hs)
      ((startsWith_iff_beginsWith (hlen.trans (by decide))).mpr hv)
    rw [hsym] at hfind
    exact hfind.lookup hp hs hlen
  unassigned := by
    intro v hno
    rcases h.total v with ⟨l, i, h1, h2, hi, hv⟩ | ⟨-, he⟩
    · obtain ⟨hs, hlen, hrank⟩ := sortSymbols_spec lens h1 hi
      refine absurd ((startsWith_iff_beginsWith (h2.trans (by decide))).mp hv) ?_
      have := hno _ hs (by omega)
      rwa [canonicalCode, hlen, hrank] at this
    · simp [DecodeTable.lookup, he, invalidCode]

/-- `zng_inflate_table` returns zero exactly for these vectors, and -1 for all others. -/
theorem zngInflateTable_canonical {type : CodeType} {lens : List Nat} {bits : Nat}
    (hp : type.Passed lens.length bits) (hl : ∀ len ∈ lens, len ≤ maxBits) :
    (Complete lens ∨ NoCodes lens ∨ (type ≠ .codes ∧ SingleCode lens) →
      ∃ t, zngInflateTable type lens bits = .ok t ∧ t.Canonical type lens) ∧
    (¬ (Complete lens ∨ NoCodes lens ∨ (type ≠ .codes ∧ SingleCode lens)) →
      zngInflateTable type lens bits = .error (-1)) := by
  rw [← accepts_iff type hl]
  rcases zngInflateTable_result hp with ⟨ha, t, ht, -⟩ | ⟨ha, he⟩
  · exact ⟨fun _ => ⟨t, ht, (zngInflateTable_decodes hp.bits_le.2 hp.room ht).canonical hp hl⟩,
      fun hno => absurd ha hno⟩
  · exact ⟨fun h => absurd h ha, fun _ => he⟩

/-- Code lengths 2, 1, 3 and 3 of four distances. -/
theorem zngInflateTable_canonical_dists :
    ∃ t, zngInflateTable .dists [2, 1, 3, 3] 9 = .ok t ∧ t.Canonical .dists [2, 1, 3, 3] :=
  (zngInflateTable_canonical (.dists (by decide)) (by decide)).1 (.inl (by rfl))

/-- Without any code lengths even the code length code is not rejected: its table makes
decoding report the error. -/
theorem zngInflateTable_no_code_lengths :
    ¬ Complete (List.replicate 19 0) ∧ (zngInflateTable .codes (List.replicate 19 0) 7).toOption.map
      (fun t => (t.entry 0, t.entry 1)) = some (invalidCode 1, invalidCode 1) :=
  ⟨by unfold Complete; decide, by decide⟩

end ZlibNg
