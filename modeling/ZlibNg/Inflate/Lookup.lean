import ZlibNg.Inflate.TreeTable

/-! What a decoder may rely on in a table: the shapes of its entries, and that an entry is
determined by the bits it takes. -/
namespace ZlibNg

/-- Entry of a literal/length code of `l` bits. -/
inductive LenEntry (l : Nat) : Code → Prop
  | lit (val : Nat) (h : val < 256) : LenEntry l { op := 0, bits := l, val := val }
  | base (extra val : Nat) (he : extra ≤ 5) (hv : 3 ≤ val) (hm : val + 2 ^ extra ≤ 259) :
      LenEntry l { op := 16 + l, bits := l + extra, val := val }
  | eob : LenEntry l { op := 96, bits := l, val := 0 }
  | invalid (op bits : Nat) (ho : op = 64 ∨ op = 75 ∨ op = 199) (h1 : l ≤ bits)
      (h2 : bits ≤ l + 11) : LenEntry l { op := op, bits := bits, val := 0 }

/-- Entry of a distance code of `l` bits. -/
inductive DistEntry (l : Nat) : Code → Prop
  | base (extra val : Nat) (he : extra ≤ 13) (hv : 1 ≤ val) (hm : val + 2 ^ extra ≤ 32769) :
      DistEntry l { op := 16 + l, bits := l + extra, val := val }
  | invalid : DistEntry l { op := 64, bits := l, val := 0 }

/-- Entry of a code length code of `l` bits. -/
inductive CodesEntry (l : Nat) : Code → Prop
  | len (val : Nat) (h : val < 19) : CodesEntry l { op := 0, bits := l, val := val }
  | invalid : CodesEntry l { op := 64, bits := l, val := 0 }

theorem base_op {l : Nat} (h : l ≤ 15) :
    (16 + l) &&& 16 = 16 ∧ (16 + l) &&& 15 = l ∧ (16 + l) &&& 32 = 0 ∧ (16 + l) &&& 64 = 0 ∧
      (16 + l) &&& 0xf0 = 16 := by
  have hfin : ∀ l ≤ 15, (16 + l) &&& 16 = 16 ∧ (16 + l) &&& 15 = l ∧ (16 + l) &&& 32 = 0 ∧
      (16 + l) &&& 64 = 0 ∧ (16 + l) &&& 0xf0 = 16 := by decide
  exact hfin l h

theorem link_op {op : Nat} (h : op ≤ 15) :
    op &&& 16 = 0 ∧ op &&& 15 = op ∧ op &&& 32 = 0 ∧ op &&& 64 = 0 ∧ op &&& 0xf0 = 0 := by
  have hfin : ∀ op ≤ 15, op &&& 16 = 0 ∧ op &&& 15 = op ∧ op &&& 32 = 0 ∧ op &&& 64 = 0 ∧
      op &&& 0xf0 = 0 := by decide
  exact hfin op h

theorem combineOp_base {op l : Nat} (hop : op &&& 16 ≠ 0) (h : l ≤ 15) : combineOp op l = 16 + l := by
  have hfin : ∀ l ≤ 15, (l ||| 16) % 256 = 16 + l := by decide
  rw [combineOp, if_pos hop, hfin l h]

theorem LenEntry.le_codeBits {l : Nat} {c : Code} (hl : l ≤ 15) (h : LenEntry l c) :
    l ≤ c.codeBits ∧ c.codeBits ≤ l + 11 := by
  cases h with
  | lit => simp [Code.codeBits]
  | base => simp [Code.codeBits, base_op hl]
  | eob => simp [Code.codeBits]
  | invalid op bits ho h1 h2 => rcases ho with rfl | rfl | rfl <;> simp [Code.codeBits, h1, h2]

theorem DistEntry.codeBits_eq {l : Nat} {c : Code} (hl : l ≤ 15) (h : DistEntry l c) :
    c.codeBits = l := by
  cases h with
  | base => simp [Code.codeBits, base_op hl]
  | invalid => simp [Code.codeBits]

theorem CodesEntry.bits_eq {l : Nat} {c : Code} (h : CodesEntry l c) :
    c.bits = l ∧ c.codeBits = l := by
  cases h <;> simp [Code.codeBits]

theorem LenEntry.direct {l : Nat} {c : Code} (hl : l ≤ 15) (h : LenEntry l c) :
    c.op = 0 ∨ c.op &&& 0xf0 ≠ 0 := by
  cases h with
  | lit => exact .inl rfl
  | base => exact .inr (by simp [base_op hl])
  | eob => exact .inr (by simp)
  | invalid op bits ho => rcases ho with rfl | rfl | rfl <;> exact .inr (by simp)

theorem DistEntry.direct {l : Nat} {c : Code} (hl : l ≤ 15) (h : DistEntry l c) :
    c.op ≠ 0 ∧ c.op &&& 0xf0 ≠ 0 := by
  cases h with
  | base => exact ⟨by simp, by simp [base_op hl]⟩
  | invalid => exact ⟨by simp, by simp⟩

theorem le_of_direct {op : Nat} (h : op = 0 ∨ op &&& 0xf0 ≠ 0) : op = 0 ∨ 16 ≤ op := by
  refine h.imp_right fun h => ?_
  by_contra hlt
  exact h (link_op (by omega)).2.2.2.2

theorem entryFor_lens {symbol l : Nat} (hs : symbol ≤ 287) (hl : l ≤ 15) :
    LenEntry l (entryFor .lens symbol l) := by
  unfold entryFor
  rcases Nat.lt_or_ge symbol 257 with hlt | hge
  · rw [if_neg (by simp only [CodeType.matchSym]; omega)]
    rcases Nat.lt_or_ge symbol 256 with hlt' | hge'
    · rw [if_pos (by simp only [CodeType.matchSym]; omega)]
      exact .lit _ hlt'
    · rw [if_neg (by simp only [CodeType.matchSym]; omega)]
      exact .eob
  · rw [if_pos (by simp only [CodeType.matchSym]; omega)]
    obtain ⟨i, rfl⟩ := Nat.exists_eq_add_of_le hge
    simp only [Nat.add_sub_cancel_left, CodeType.matchSym, CodeType.extra, CodeType.base]
    have hfin : ∀ i < 29, lext.getD i 0 &&& 16 ≠ 0 ∧ lext.getD i 0 &&& 15 ≤ 5 ∧
        3 ≤ lbase.getD i 0 ∧ lbase.getD i 0 + 2 ^ (lext.getD i 0 &&& 15) ≤ 259 := by decide
    rcases Nat.lt_or_ge i 29 with hi | hi
    · obtain ⟨h1, h2, h3, h4⟩ := hfin i hi
      rw [combineOp_base h1 hl, combineBits, Nat.mod_eq_of_lt (by omega)]
      exact .base _ _ h2 h3 h4
    · have hi' : i = 29 ∨ i = 30 := by omega
      rcases hi' with rfl | rfl
      · have hb : combineBits l 199 = l + 7 := Nat.mod_eq_of_lt (show l + 7 < 256 by omega)
        simpa [lext, lbase, combineOp, hb] using
          LenEntry.invalid (l := l) 199 (l + 7) (by omega) (by omega) (by omega)
      · have hb : combineBits l 75 = l + 11 := Nat.mod_eq_of_lt (show l + 11 < 256 by omega)
        simpa [lext, lbase, combineOp, hb] using
          LenEntry.invalid (l := l) 75 (l + 11) (by omega) (by omega) (by omega)

theorem entryFor_dists {symbol l : Nat} (hs : symbol ≤ 31) (hl : l ≤ 15) :
    DistEntry l (entryFor .dists symbol l) := by
  unfold entryFor
  rw [if_pos (by simp only [CodeType.matchSym]; omega)]
  simp only [CodeType.matchSym, Nat.sub_zero, CodeType.extra, CodeType.base]
  have hfin : ∀ i < 30, dext.getD i 0 &&& 16 ≠ 0 ∧ dext.getD i 0 &&& 15 ≤ 13 ∧
      1 ≤ dbase.getD i 0 ∧ dbase.getD i 0 + 2 ^ (dext.getD i 0 &&& 15) ≤ 32769 := by decide
  rcases Nat.lt_or_ge symbol 30 with hi | hi
  · obtain ⟨h1, h2, h3, h4⟩ := hfin symbol hi
    rw [combineOp_base h1 hl, combineBits, Nat.mod_eq_of_lt (by omega)]
    exact .base _ _ h2 h3 h4
  · have hb : combineBits l 64 = l := Nat.mod_eq_of_lt (show l < 256 by omega)
    have hi' : symbol = 30 ∨ symbol = 31 := by omega
    rcases hi' with rfl | rfl <;> simpa [dext, dbase, combineOp, hb] using DistEntry.invalid (l := l)

theorem entryFor_codes {symbol l : Nat} (hs : symbol ≤ 18) :
    CodesEntry l (entryFor .codes symbol l) := by
  unfold entryFor
  rw [if_neg (by simp only [CodeType.matchSym]; omega), if_pos (by simp only [CodeType.matchSym]; omega)]
  exact .len _ (by omega)

/-- A root table with sub-tables, whose entries have the shape `P` for their code size. -/
structure TwoLevel (P : Nat → Code → Prop) (entry : Nat → Code) (root : Nat) : Prop where
  look : ∀ v, (∃ l, 1 ≤ l ∧ l ≤ root ∧ P l (entry (v % 2 ^ root))) ∨
    ∃ curr next, entry (v % 2 ^ root) = { op := curr, bits := root, val := next } ∧
      1 ≤ curr ∧ root + curr ≤ 15 ∧
      ∃ l, 1 ≤ l ∧ l ≤ curr ∧ P l (entry (next + v / 2 ^ root % 2 ^ curr))
  stable : ∀ v w, v % 2 ^ (entry (v % 2 ^ root)).codeBits = w % 2 ^ (entry (v % 2 ^ root)).codeBits →
    entry (v % 2 ^ root) = entry (w % 2 ^ root)
  stableSub : ∀ v w curr next, entry (v % 2 ^ root) = { op := curr, bits := root, val := next } →
    1 ≤ curr → curr ≤ 15 → v % 2 ^ root = w % 2 ^ root →
    v / 2 ^ root % 2 ^ (entry (next + v / 2 ^ root % 2 ^ curr)).codeBits =
      w / 2 ^ root % 2 ^ (entry (next + v / 2 ^ root % 2 ^ curr)).codeBits →
    entry (next + v / 2 ^ root % 2 ^ curr) = entry (next + w / 2 ^ root % 2 ^ curr)

theorem StartsWith.of_mod {lens : List Nat} {l j v w : Nat} (h : StartsWith lens l j v)
    (hw : v % 2 ^ l = w % 2 ^ l) : StartsWith lens l j w := by
  rw [StartsWith] at h ⊢
  rw [← hw, h]

theorem mod_two_pow_mono {a b m n : Nat} (h : m ≤ n) (hab : a % 2 ^ n = b % 2 ^ n) :
    a % 2 ^ m = b % 2 ^ m := by
  rw [← Nat.mod_mod_of_dvd a (Nat.pow_dvd_pow 2 h), hab,
    Nat.mod_mod_of_dvd b (Nat.pow_dvd_pow 2 h)]

/-- A finished table is a two-level table of entries of the right shape. -/
theorem DecodeTable.Decodes.twoLevel {P : Nat → Code → Prop} {type : CodeType} {lens : List Nat}
    {bits : Nat} {t : DecodeTable} (h : t.Decodes type lens bits)
    (hP : ∀ l c, l ≤ 15 → P l c → l ≤ c.codeBits ∧ (c.op = 0 ∨ 16 ≤ c.op))
    (hentry : ∀ symbol l, symbol < lens.length → l ≤ 15 → P l (entryFor type symbol l))
    (hinv : P 1 (invalidCode 1)) : TwoLevel P t.entry t.bits := by
  have hbl : t.bits ≤ 15 := h.bits_le
  have hlook : ∀ l i l', 1 ≤ l → i < countLengths lens l → l' ≤ 15 →
      P l' (entryFor type (symbolAt lens l i) l') := fun l i l' h1 hi hl' =>
    hentry _ _ (sortSymbols_spec lens h1 hi).1 hl'
  have hroot : ∀ v w (c : Code), t.bits ≤ c.codeBits → v % 2 ^ c.codeBits = w % 2 ^ c.codeBits →
      t.entry (v % 2 ^ t.bits) = t.entry (w % 2 ^ t.bits) := fun v w c hc hvw => by
    rw [mod_two_pow_mono hc hvw]
  refine ⟨fun v => ?_, fun v w hvw => ?_, fun v w curr next hlink h1c h2c hvw hsub => ?_⟩
  · rcases h.total v with ⟨l, i, h1, h2, hi, hv⟩ | ⟨hb, hv⟩
    · rcases h.finds l i v h1 h2 hi hv with ⟨hl, he⟩ | ⟨hl, curr, next, he, hc, hc', hs⟩
      · exact .inl ⟨l, h1, hl, he ▸ hlook l i l h1 hi h2⟩
      · exact .inr ⟨curr, next, he, by omega, hc', l - t.bits, by omega, by omega,
          hs ▸ hlook l i _ h1 hi (by simp only [maxBits] at h2; omega)⟩
    · exact .inl ⟨1, le_rfl, hb.ge, hv ▸ hinv⟩
  · rcases h.total v with ⟨l, i, h1, h2, hi, hv⟩ | ⟨hb, hv⟩
    · rcases h.finds l i v h1 h2 hi hv with ⟨hl, he⟩ | ⟨hl, curr, next, he, -, hc, -⟩
      · have hcb := (hP l _ h2 (hlook l i l h1 hi h2)).1
        rw [he] at hvw
        rcases h.finds l i w h1 h2 hi (hv.of_mod (mod_two_pow_mono hcb hvw)) with ⟨-, he'⟩ | ⟨hl', -⟩
        · rw [he, he']
        · omega
      · refine hroot v w _ ?_ hvw
        rw [he]
        simp [Code.codeBits, link_op (show curr ≤ 15 by simp only [maxBits] at hc; omega)]
    · refine hroot v w _ ?_ hvw
      rw [hv, hb]
      simp [Code.codeBits, invalidCode]
  · rcases h.total v with ⟨l, i, h1, h2, hi, hv⟩ | ⟨-, hv⟩
    · rcases h.finds l i v h1 h2 hi hv with ⟨hl, he⟩ | ⟨hl, curr', next', he, hc, hc', hs⟩
      · have hop := (hP l _ h2 (hlook l i l h1 hi h2)).2
        rw [← he, hlink] at hop
        simp only at hop
        omega
      · obtain ⟨rfl, rfl⟩ : curr = curr' ∧ next = next' := by
          rw [hlink] at he
          simpa using he
        have hcb := (hP (l - t.bits) _ (by simp only [maxBits] at h2; omega)
          (hlook l i (l - t.bits) h1 hi (by simp only [maxBits] at h2; omega))).1
        rw [hs] at hsub
        have hvw' : v % 2 ^ l = w % 2 ^ l := by
          have := (mod_two_pow_add_iff v w t.bits (l - t.bits)).mpr
            ⟨hvw, mod_two_pow_mono hcb hsub⟩
          rwa [Nat.add_sub_cancel' hl.le] at this
        rcases h.finds l i w h1 h2 hi (hv.of_mod hvw') with ⟨hl', -⟩ | ⟨-, curr', next', he', -, -, hs'⟩
        · omega
        · rw [← hvw, hlink] at he'
          obtain ⟨rfl, rfl⟩ : curr = curr' ∧ next = next' := by simpa using he'
          rw [hs, hs']
    · rw [hlink] at hv
      have : curr = 64 := congrArg Code.op hv
      omega

end ZlibNg
