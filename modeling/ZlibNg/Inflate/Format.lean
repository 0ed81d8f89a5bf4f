import ZlibNg.Inflate.HeaderRead
import ZlibNg.Trees.BlockSeq

/-! The header and the trailer of a stream, as the machine of `inflate` reads them. -/
namespace ZlibNg
open BitProg

section Words

theorem adler32_lt {check : Nat} (h : check < 2 ^ 32) (bytes : List UInt8) :
    adler32 check bytes < 2 ^ 32 := by
  induction bytes generalizing check with
  | nil => exact h
  | cons b bytes ih =>
    apply ih
    unfold adlerDo1 adlerBase
    dsimp only
    omega

theorem crc32_lt {check : Nat} (h : check < 2 ^ 32) (bytes : List UInt8) :
    crc32 check bytes < 2 ^ 32 := by
  have htable : ∀ n < 256, crcTable n < 2 ^ 32 := by decide +kernel
  have hfold : ∀ c < 2 ^ 32, bytes.foldl crcDo1 c < 2 ^ 32 := by
    induction bytes with
    | nil => exact fun _ hc => hc
    | cons b bytes ih =>
      intro c hc
      apply ih
      have hshift : c >>> 8 < 2 ^ 32 := (Nat.shiftRight_le c 8).trans_lt hc
      exact Nat.xor_lt_two_pow (htable _ (Nat.mod_lt _ (by decide))) hshift
  exact Nat.xor_lt_two_pow (hfold _ (Nat.xor_lt_two_pow h (by decide))) (by decide)

theorem zswap32_bytes {p q r t : Nat} (hp : p < 256) (hq : q < 256) (hr : r < 256) (ht : t < 256) :
    zswap32 (p + 256 * (q + 256 * (r + 256 * t))) = t + 256 * (r + 256 * (q + 256 * p)) := by
  have h24 : (p + 256 * (q + 256 * (r + 256 * t))) / 16777216 % 256 = t := by omega
  have h16 : (p + 256 * (q + 256 * (r + 256 * t))) / 65536 % 256 = r := by omega
  have h8 : (p + 256 * (q + 256 * (r + 256 * t))) / 256 % 256 = q := by omega
  have h0 : (p + 256 * (q + 256 * (r + 256 * t))) % 256 = p := by omega
  generalize p + 256 * (q + 256 * (r + 256 * t)) = w at h24 h16 h8 h0
  have hswap : zswap32 w = w / 16777216 % 256 + w / 65536 % 256 * 256 + w / 256 % 256 * 65536 +
      w % 256 * 16777216 := by
    unfold zswap32
    rw [Nat.shiftRight_eq_div_pow, Nat.shiftRight_eq_div_pow, Nat.shiftRight_eq_div_pow,
      Nat.shiftLeft_eq, Nat.shiftLeft_eq, Nat.shiftLeft_eq]
  rw [hswap, h24, h16, h8, h0]
  ring

/-- The check value of a zlib stream is read as it is written. -/
theorem zswap32_reverse {a : Nat} (h : a < 2 ^ 32) : zswap32 (leNat (leBytes a 4).reverse) = a := by
  have hword : leNat (leBytes a 4).reverse = a >>> 8 >>> 8 >>> 8 % 256 + 256 * (a >>> 8 >>> 8 % 256 +
      256 * (a >>> 8 % 256 + 256 * (a % 256))) := by
    simp only [leBytes, List.reverse_cons, List.reverse_nil, List.nil_append, List.cons_append, leNat,
      UInt8.toNat_ofNat', Nat.mul_zero, Nat.add_zero]
  have hlt : ∀ n, n % 256 < 256 := fun n => Nat.mod_lt n (by decide)
  rw [hword, zswap32_bytes (hlt _) (hlt _) (hlt _) (hlt _)]
  simp only [Nat.shiftRight_eq_div_pow]
  omega

end Words

section Header
variable {s : InflateState} {w : Nat} {reach : Nat → Nat}

/-- A word that `inflate` takes for the header of a zlib stream, with no dictionary. -/
structure ZlibWord (w : Nat) : Prop where
  lt : w < 2 ^ 16
  ne_gzip : w ≠ 0x8b1f
  check : ((w % 2 ^ 8) <<< 8 + w >>> 8) % 31 = 0
  method : w % 2 ^ 4 = zDeflated
  size : w / 2 ^ 4 % 2 ^ 4 + 8 ≤ maxWbits
  no_dict : w / 2 ^ 4 &&& 0x200 = 0

/-- The header of a zlib stream is read. -/
theorem caseHead_zlib (h : ZlibWord w) (hwrap : s.wrap &&& 1 ≠ 0) (hbits : s.wbits = 15)
    (rest : BitStream) :
    ∃ s', s.caseHead.runStream 0 ((BitStream.ofNat w 16).append rest) = some (s', rest) ∧
      s'.mode = .type ∧ s'.wrap = s.wrap ∧ s'.flags = 0 ∧ s'.last = s.last := by
  have hpeek : ∀ n ≤ 16, ((BitStream.ofNat w 16).append rest).peek n = w % 2 ^ n := by
    intro n hn
    rw [BitStream.peek_append (by rwa [BitStream.ofNat_len]), BitStream.peek, BitStream.ofNat_val,
      Nat.mod_eq_of_lt h.lt]
  have hdrop : ((BitStream.ofNat w 16).append rest).drop 4 =
      (BitStream.ofNat (w / 2 ^ 4) 12).append rest := by
    rw [BitStream.drop_append (show 4 ≤ 16 by decide)]
    congr 1
    ext
    · have hlt := h.lt
      simp only [BitStream.drop_val, BitStream.ofNat_val]
      omega
    · rfl
  have hlow : ∀ n ≤ 12, ((BitStream.ofNat (w / 2 ^ 4) 12).append rest).peek n = w / 2 ^ 4 % 2 ^ n := by
    intro n hn
    have hlt : w / 2 ^ 4 < 2 ^ 12 := by
      have := h.lt
      omega
    rw [BitStream.peek_append (by rwa [BitStream.ofNat_len]), BitStream.peek, BitStream.ofNat_val,
      Nat.mod_eq_of_lt hlt]
  have hwhole : w / 2 ^ 4 % 2 ^ 12 = w / 2 ^ 4 := by
    have := h.lt
    omega
  have hne : s.wrap ≠ 0 := by
    intro h0
    rw [h0] at hwrap
    exact hwrap rfl
  have hlen : 16 ≤ ((BitStream.ofNat w 16).append rest).len := by
    rw [BitStream.append_len, BitStream.ofNat_len]
    exact Nat.le_add_right _ _
  have hw : w % 2 ^ 16 = w := Nat.mod_eq_of_lt h.lt
  simp only [InflateState.caseHead, if_neg hne, needBits, hold, bits, initBits, dropBits, pure_eq, ret_bind,
    need_bind, whole_bind, peek_bind, skip_bind, empty_bind, runStream_ite, runStream, if_pos hlen,
    Nat.zero_max, hpeek 16 le_rfl, hpeek 8 (by decide), hpeek 4 (by decide), hdrop, hw]
  rw [if_neg fun hg => h.ne_gzip hg.2, if_neg fun hor => hor.elim hwrap fun hc => hc h.check,
    if_neg fun hm => hm h.method]
  simp only [hlow 4 (by decide), hlow 12 le_rfl, show 16 - 4 = 12 from rfl, hwhole, hbits]
  rw [if_neg]
  · rw [BitStream.drop_ofNat_append]
    refine ⟨_, rfl, ?_, rfl, rfl, rfl⟩
    exact if_neg fun hd => hd h.no_dict
  · have hsize := h.size
    rw [show maxWbits = 15 from rfl] at hsize ⊢
    simp only [show ¬(15 : Nat) = 0 by decide, if_false]
    omega

/-- A check value that is right is read. -/
theorem check_step {hist x t : List UInt8} (hm : s.mode = .check) (hwrap : s.wrap ≠ 0)
    (hx : x.length = 4)
    (hword : (if s.flags ≠ 0 then leNat x else zswap32 (leNat x)) = hashOf s.flags hist.reverse) :
    Decoder.next reach ⟨s, .ofBytes (x ++ t), hist⟩ =
      some ⟨{ s with
        check := hashOf s.flags hist.reverse, total := hist.length, mode := .length },
        .ofBytes t, hist⟩ := by
  have hlen : 8 * x.length = 32 := by rw [hx]
  have hnext : ∀ v, Decoder.next reach ⟨s, v, hist⟩ = Decoder.runCase ⟨s, v, hist⟩
      (InflateState.caseCheck { s with
        check := hashOf s.flags hist.reverse, total := hist.length }) := by
    intro v
    unfold Decoder.next
    dsimp only
    rw [hm]
  generalize hashOf s.flags hist.reverse = check at *
  have hread : InflateState.caseCheck { s with check := check, total := hist.length } =
      (do
        needBits 32
        let w ← hold
        if s.wrap &&& 4 ≠ 0 ∧ (if s.flags ≠ 0 then w else zswap32 w) ≠ check then
          return InflateState.setBad { s with check := check, total := hist.length } "incorrect data check"
        else do
          initBits
          return { s with check := check, total := hist.length, mode := .length } : CaseProg) :=
    if_pos hwrap
  rw [hnext, hread, Decoder.runCase]
  simp only [needBits, hold, initBits, pure_eq, ret_bind, need_bind, whole_bind, empty_bind]
  rw [runStream_word hlen, hword, if_neg fun h => h.2 rfl, runStream_empty hlen]
  rfl

/-- The trailer of a zlib stream is read. -/
theorem checks_zlib {hist : List UInt8} (hm : s.mode = .check) (hwrap : s.wrap ≠ 0) (hf : s.flags = 0) :
    ∃ s', Decoder.Steps reach
        ⟨s, .ofBytes (leBytes (adler32 adler32InitialValue hist.reverse) 4).reverse, hist⟩
        ⟨s', .ofBytes [], hist⟩ ∧ s'.mode = .done := by
  have hlt := adler32_lt (show adler32InitialValue < 2 ^ 32 by decide) hist.reverse
  have hhash : hashOf s.flags hist.reverse = adler32 adler32InitialValue hist.reverse := by
    rw [hashOf, if_neg fun h => h hf]
  have hcheck := @check_step s reach hist
    (leBytes (adler32 adler32InitialValue hist.reverse) 4).reverse [] hm hwrap rfl (by
      rw [if_neg fun h => h hf, hhash, zswap32_reverse hlt])
  rw [List.append_nil] at hcheck
  have hlength : Decoder.next reach ⟨{ s with
        check := hashOf s.flags hist.reverse, total := hist.length, mode := .length },
        .ofBytes [], hist⟩ =
      some ⟨{ s with
        check := hashOf s.flags hist.reverse, total := hist.length, mode := .done },
        .ofBytes [], hist⟩ := by
    have hskip : ¬(s.wrap ≠ 0 ∧ s.flags ≠ 0) := fun h => h.2 hf
    unfold Decoder.next Decoder.runCase InflateState.caseLength
    dsimp only
    rw [if_neg hskip]
    rfl
  exact ⟨_, .tail (.single hcheck) hlength, rfl⟩

/-- The trailer of a gzip stream is read. -/
theorem checks_gzip {hist : List UInt8} (hm : s.mode = .check) (hwrap : s.wrap ≠ 0) (hf : s.flags ≠ 0) :
    ∃ s', Decoder.Steps reach
        ⟨s, .ofBytes (leBytes (crc32 crc32InitialValue hist.reverse) 4 ++ leBytes hist.length 4), hist⟩
        ⟨s', .ofBytes [], hist⟩ ∧ s'.mode = .done := by
  have hlt := crc32_lt (show crc32InitialValue < 2 ^ 32 by decide) hist.reverse
  have hhash : hashOf s.flags hist.reverse = crc32 crc32InitialValue hist.reverse := if_pos hf
  have hcheck := @check_step s reach hist (leBytes (crc32 crc32InitialValue hist.reverse) 4)
    (leBytes hist.length 4) hm hwrap rfl (by
      rw [if_pos hf, hhash, leNat_leBytes, Nat.mod_eq_of_lt hlt])
  have hlen : 8 * (leBytes hist.length 4).length = 32 := rfl
  have hread : InflateState.caseLength { s with
        check := hashOf s.flags hist.reverse, total := hist.length, mode := .length } =
      (do
        needBits 32
        let w ← hold
        if s.wrap &&& 4 ≠ 0 ∧ w ≠ hist.length % 2 ^ 32 then
          return InflateState.setBad { s with
            check := hashOf s.flags hist.reverse, total := hist.length, mode := .length }
              "incorrect length check"
        else do
          initBits
          return { s with
            check := hashOf s.flags hist.reverse, total := hist.length, mode := .done } : CaseProg) :=
    if_pos ⟨hwrap, hf⟩
  have hlength : Decoder.next reach ⟨{ s with
        check := hashOf s.flags hist.reverse, total := hist.length, mode := .length },
        .ofBytes (leBytes hist.length 4), hist⟩ =
      some ⟨{ s with
        check := hashOf s.flags hist.reverse, total := hist.length, mode := .done },
        .ofBytes [], hist⟩ := by
    have hnext : Decoder.next reach ⟨{ s with
        check := hashOf s.flags hist.reverse, total := hist.length, mode := .length },
        .ofBytes (leBytes hist.length 4), hist⟩ =
      Decoder.runCase ⟨{ s with
        check := hashOf s.flags hist.reverse, total := hist.length, mode := .length },
        .ofBytes (leBytes hist.length 4), hist⟩ (InflateState.caseLength { s with
        check := hashOf s.flags hist.reverse, total := hist.length, mode := .length }) := rfl
    rw [hnext, hread, Decoder.runCase]
    dsimp only
    have hnil : BitStream.ofBytes (leBytes hist.length 4) = .ofBytes (leBytes hist.length 4 ++ []) := by
      rw [List.append_nil]
    simp only [needBits, hold, initBits, pure_eq, ret_bind, need_bind, whole_bind, empty_bind]
    rw [hnil, runStream_word hlen, leNat_leBytes, if_neg fun h => h.2 rfl, runStream_empty hlen]
    rfl
  exact ⟨_, .tail (.single hcheck) hlength, rfl⟩

/-- The machine in a part of a gzip header without fields. -/
structure PlainGzip (wrap : Nat) (mode : Mode) (s : InflateState) : Prop where
  mode : s.mode = mode
  wrap : s.wrap = wrap
  last : s.last = false
  flags : s.flags = 8

section Gzip
variable {wrap : Nat} {hist : List UInt8} {rest : BitStream}

/-- A word that a part of the header reads. -/
theorem runStream_ofNat {k : Nat → CaseProg} {n w : Nat} (hw : w < 2 ^ n) (rest : BitStream) :
    (need n (whole k)).runStream 0 ((BitStream.ofNat w n).append rest) =
      (k w).runStream n ((BitStream.ofNat w n).append rest) := by
  have hlen : n ≤ ((BitStream.ofNat w n).append rest).len := by
    rw [BitStream.append_len, BitStream.ofNat_len]
    exact Nat.le_add_right _ _
  simp only [runStream, if_pos hlen, Nat.zero_max, peek_put hw]

theorem runStream_drop (p : CaseProg) (w n : Nat) (rest : BitStream) :
    (empty p).runStream n ((BitStream.ofNat w n).append rest) = p.runStream 0 rest := by
  simp only [runStream, BitStream.drop_ofNat_append]

theorem headerCheck_plain {t : InflateState} (h : t.flags = 8) (bytes : List UInt8) :
    t.headerCheck bytes = t := by
  have hnot : ¬(t.flags &&& 0x0200 ≠ 0 ∧ t.wrap &&& 4 ≠ 0) := by
    rw [h]
    exact fun hne => hne.1 (by decide)
  exact if_neg hnot

theorem headerCheck_head (h : s.flags = 8) (f : GzHeader → GzHeader) (bytes : List UInt8) :
    (s.withHead f).headerCheck bytes = s.withHead f :=
  @headerCheck_plain (s.withHead f) h bytes

theorem head_gzip (hm : s.mode = .head) (hwrap : s.wrap &&& 2 ≠ 0) (hlast : s.last = false) :
    ∃ s', Decoder.next reach ⟨s, (BitStream.ofNat 0x8b1f 16).append rest, hist⟩ =
        some ⟨s', rest, hist⟩ ∧ s'.mode = .flags ∧ s'.wrap = s.wrap ∧ s'.last = false := by
  have hcase : s.bitCase = some s.caseHead := by
    unfold InflateState.bitCase
    rw [hm]
  have hne : s.wrap ≠ 0 := by
    intro h0
    rw [h0] at hwrap
    exact hwrap rfl
  rw [Decoder.next_prog hcase (by rw [hm]; decide), Decoder.runCase]
  simp only [InflateState.caseHead, if_neg hne, needBits, hold, bits, initBits, dropBits, pure_eq, ret_bind,
    need_bind, whole_bind]
  rw [runStream_ofNat (by decide), if_pos ⟨hwrap, rfl⟩]
  simp only [empty_bind, runStream_drop]
  exact ⟨_, rfl, rfl, rfl, hlast⟩

theorem flags_gzip (hm : s.mode = .flags) (hlast : s.last = false) :
    ∃ s', Decoder.next reach ⟨s, (BitStream.ofNat 8 16).append rest, hist⟩ =
        some ⟨s', rest, hist⟩ ∧ PlainGzip s.wrap .time s' := by
  have hcase : s.bitCase = some s.caseFlags := by
    unfold InflateState.bitCase
    rw [hm]
  rw [Decoder.next_prog hcase (by rw [hm]; decide), Decoder.runCase]
  simp only [InflateState.caseFlags, needBits, hold, initBits, pure_eq, ret_bind, need_bind, whole_bind]
  have hmethod : ¬(UInt32.ofNat 8 &&& 0xff ≠ UInt32.ofNat zDeflated) := by decide
  have hunknown : ¬(UInt32.ofNat 8 &&& 0xe000 ≠ 0) := by decide
  rw [runStream_ofNat (by decide), if_neg hmethod, if_neg hunknown, headerCheck_plain rfl]
  simp only [empty_bind, runStream_drop]
  exact ⟨_, rfl, rfl, rfl, hlast, rfl⟩

theorem PlainGzip.time (h : PlainGzip wrap .time s) :
    ∃ s', Decoder.next reach ⟨s, (BitStream.ofNat 0 32).append rest, hist⟩ =
        some ⟨s', rest, hist⟩ ∧ PlainGzip wrap .os s' := by
  have hcase : s.bitCase = some s.caseTime := by
    unfold InflateState.bitCase
    rw [h.mode]
  rw [Decoder.next_prog hcase (by rw [h.mode]; decide), Decoder.runCase]
  simp only [InflateState.caseTime, needBits, hold, initBits, pure_eq, ret_bind, need_bind, whole_bind]
  rw [runStream_ofNat (by decide), headerCheck_head h.flags]
  simp only [empty_bind, runStream_drop]
  exact ⟨_, rfl, rfl, h.wrap, h.last, h.flags⟩

theorem PlainGzip.os (h : PlainGzip wrap .os s) {w : Nat} (hw : w < 2 ^ 16) :
    ∃ s', Decoder.next reach ⟨s, (BitStream.ofNat w 16).append rest, hist⟩ =
        some ⟨s', rest, hist⟩ ∧ PlainGzip wrap .exlen s' := by
  have hcase : s.bitCase = some s.caseOs := by
    unfold InflateState.bitCase
    rw [h.mode]
  rw [Decoder.next_prog hcase (by rw [h.mode]; decide), Decoder.runCase]
  simp only [InflateState.caseOs, needBits, hold, initBits, pure_eq, ret_bind, need_bind, whole_bind]
  rw [runStream_ofNat hw, headerCheck_head h.flags]
  simp only [empty_bind, runStream_drop]
  exact ⟨_, rfl, rfl, h.wrap, h.last, h.flags⟩

/-- The parts of the header that are not there are passed over. -/
theorem PlainGzip.skips (h : PlainGzip wrap .exlen s) (v : BitStream) :
    ∃ s', Decoder.Steps reach ⟨s, v, hist⟩ ⟨s', v, hist⟩ ∧ PlainGzip wrap .type s' := by
  have hbit : ∀ m : UInt32, (8 : UInt32) &&& m = 0 → ¬s.flags &&& m ≠ 0 := by
    intro m hz
    rw [h.flags]
    exact not_not.mpr hz
  have hcase : s.bitCase = some s.caseExlen := by
    unfold InflateState.bitCase
    rw [h.mode]
  obtain ⟨t, ht⟩ : ∃ t, (s.withHead fun head => { head with extra := none }) = t := ⟨_, rfl⟩
  have hexlen : Decoder.next reach ⟨s, v, hist⟩ = some ⟨{ t with mode := .extra }, v, hist⟩ := by
    rw [Decoder.next_prog hcase (by rw [h.mode]; decide), Decoder.runCase, InflateState.caseExlen,
      if_neg (hbit 0x0400 (by decide)), ← ht]
    rfl
  have hflags : t.flags = 8 := by
    rw [← ht]
    exact h.flags
  have hskip : ∀ m : UInt32, (8 : UInt32) &&& m = 0 → ¬t.flags &&& m ≠ 0 := by
    intro m hz
    rw [hflags]
    exact not_not.mpr hz
  have hextra : Decoder.next reach ⟨{ t with mode := .extra }, v, hist⟩ =
      some ⟨{ t with length := 0, mode := .name }, v, hist⟩ := by
    unfold Decoder.next
    dsimp only
    rw [if_neg fun hne => hskip 0x0400 (by decide) hne.1]
  have hname : Decoder.next reach ⟨{ t with length := 0, mode := .name }, v, hist⟩ =
      some ⟨{ t with length := 0, mode := .comment }, v, hist⟩ := by
    unfold Decoder.next
    dsimp only
    rw [if_neg (hskip 0x0800 (by decide))]
  have hcomment : Decoder.next reach ⟨{ t with length := 0, mode := .comment }, v, hist⟩ =
      some ⟨{ t with length := 0, mode := .hcrc }, v, hist⟩ := by
    unfold Decoder.next
    dsimp only
    rw [if_neg (hskip 0x1000 (by decide))]
  have hhcrc : Decoder.next reach ⟨{ t with length := 0, mode := .hcrc }, v, hist⟩ =
      some ⟨InflateState.headerDone { t with length := 0, mode := .hcrc }, v, hist⟩ := by
    unfold Decoder.next Decoder.runCase
    dsimp only [InflateState.bitCase]
    rw [InflateState.caseHcrc, if_neg (hskip 0x0200 (by decide))]
    rfl
  have hdone : PlainGzip wrap .type (InflateState.headerDone { t with length := 0, mode := .hcrc }) := by
    have hw : t.wrap = wrap := by
      rw [← ht]
      exact h.wrap
    have hl : t.last = false := by
      rw [← ht]
      exact h.last
    unfold InflateState.headerDone
    dsimp only
    split
    · exact ⟨rfl, hw, hl, hflags⟩
    · exact ⟨rfl, hw, hl, hflags⟩
  have hfirst : Decoder.Steps reach ⟨s, v, hist⟩ ⟨{ t with mode := .extra }, v, hist⟩ := .single hexlen
  exact ⟨_, (((hfirst.tail hextra).tail hname).tail hcomment).tail hhcrc, hdone⟩

end Gzip
end Header
end ZlibNg
