import ZlibNg.Checksum.SwarSpec
import Mathlib.Data.Nat.ModEq

/-! Adler-32 of whole buffers: the sums modulo 65521, for every alignment and length, and no
number that overflows on the way. -/
namespace ZlibNg

section Loops
variable {A : WordArith} {order : ByteOrder} {copy : Bool}

theorem swarChunk_spec {len : Nat} (h : 8 ≤ len) : 8 ≤ swarChunk len ∧ swarChunk len ≤ len ∧
    swarChunk len % 8 = 0 ∧ swarChunk len ≤ adler32SwarMaxBytes := by
  simp only [swarChunk, alignDown8, adler32SwarMaxBytes]
  omega

theorem AdlerState.advance_buf (n : Nat) (s : AdlerState) :
    (s.advance copy n).buf = s.buf.drop n := rfl

variable (order copy) in
/-- One chunk of `len` bytes, and what is left of them. -/
theorem AdlerState.chunk_eq (hA : A.Exact) {len : Nat} {s : AdlerState} (h8 : 8 ≤ len)
    (hlen : len ≤ s.buf.length) (h : s.Room len) :
    s.swar A order copy (swarChunk len) = some (s.advance copy (swarChunk len)) ∧
      (s.advance copy (swarChunk len)).Room (len - swarChunk len) ∧
      len - swarChunk len ≤ (s.advance copy (swarChunk len)).buf.length := by
  obtain ⟨h1, h2, h3, h4⟩ := swarChunk_spec h8
  have hsplit : len = swarChunk len + (len - swarChunk len) := by omega
  refine ⟨AdlerState.swar_eq hA h3 h4 (h2.trans hlen) (h.mono h2), ?_, ?_⟩
  · rw [hsplit] at h
    exact (@AdlerState.Room.split copy _ _ _ h).2
  · rw [AdlerState.advance_buf, List.length_drop]
    omega

/-- A block is all of its bytes. -/
theorem AdlerState.block_eq (hA : A.Exact) {n : Nat} {s : AdlerState} (h8 : n % 8 = 0)
    (hpos : 0 < n) (hlen : n ≤ s.buf.length) (h : s.Room n) :
    s.block A order n = some (s.advance false n) := by
  induction n using Nat.strong_induction_on generalizing s with
  | h n ih =>
    obtain ⟨h1, h2, h3, h4⟩ := swarChunk_spec (show 8 ≤ n by omega)
    obtain ⟨hs, hr, hl⟩ := AdlerState.chunk_eq order false hA
      (show 8 ≤ n by omega) hlen h
    unfold AdlerState.block
    rw [hs, Option.bind_some]
    split
    · rw [ih _ (by omega) (by omega) (by omega) hl hr, AdlerState.advance_advance,
        Nat.add_sub_cancel' h2]
    · rw [show swarChunk n = n by omega]

variable (order copy) in
/-- The tail takes words while the source is aligned, and single bytes after them. -/
theorem AdlerState.tailWords_spec (hA : A.Exact) {len : Nat} {s : AdlerState}
    (hlen : len ≤ s.buf.length) (h : s.Room len) :
    ∃ k ≤ len, s.tailWords A order copy len = some (len - k, s.advance copy k) := by
  induction len using Nat.strong_induction_on generalizing s with
  | h len ih =>
    unfold AdlerState.tailWords
    split
    · next hc =>
      obtain ⟨h1, h2, h3, h4⟩ := swarChunk_spec hc.1
      obtain ⟨hs, hr, hl⟩ := AdlerState.chunk_eq order copy hA hc.1 hlen h
      obtain ⟨k, hk, ht⟩ := ih _ (by omega) hl hr
      refine ⟨swarChunk len + k, by omega, ?_⟩
      rw [hs, Option.bind_some, ht, AdlerState.advance_advance, Nat.sub_sub]
    · exact ⟨0, Nat.zero_le _, by rw [AdlerState.advance_zero, Nat.sub_zero]⟩

theorem AdlerState.tailBytes_eq (hA : A.Exact) {len : Nat} {s : AdlerState}
    (hlen : len ≤ s.buf.length) (h : s.Room len) :
    s.tailBytes A order copy len = some (s.advance copy len) := by
  obtain ⟨k, hk, ht⟩ := AdlerState.tailWords_spec order copy hA hlen h
  generalize hm : len - k = m at ht
  have hsplit : len = ((k + (m - m % 4)) + if m % 4 / 2 % 2 ≠ 0 then 2 else 0) +
      (if m % 4 % 2 ≠ 0 then 1 else 0) := by
    split <;> split <;> omega
  rw [hsplit] at h
  obtain ⟨h123, h4⟩ := @AdlerState.Room.split copy _ _ _ h
  obtain ⟨h12, h3⟩ := @AdlerState.Room.split copy _ _ _ h123
  obtain ⟨h1, h2⟩ := @AdlerState.Room.split copy _ _ _ h12
  simp only [AdlerState.tailBytes, ht, Option.bind_eq_bind, Option.bind_some,
    AdlerState.doFours_eq hA h2, AdlerState.advance_advance, AdlerState.doBytesIf_eq hA h3,
    AdlerState.doBytesIf_eq hA h4]
  rw [← hsplit]

end Loops

/-- The sums of a state are those of the bytes `xs` after the start values, modulo 65521. -/
structure AdlerState.Sums (low high : Nat) (xs : List UInt8) (s : AdlerState) : Prop where
  adler : s.adler ≡ low + byteSum xs [MOD adlerBase]
  sum2 : s.sum2 ≡ high + runningSum low xs [MOD adlerBase]

theorem runningSum_modEq {a b : Nat} (h : a ≡ b [MOD adlerBase]) (xs : List UInt8) :
    runningSum a xs ≡ runningSum b xs [MOD adlerBase] := by
  rw [runningSum_start a, runningSum_start b]
  exact (h.mul_right _).add_right _

section Sums
variable {low high : Nat} {xs : List UInt8} {s : AdlerState}

theorem AdlerState.Sums.advance (h : s.Sums low high xs) (copy : Bool) (n : Nat) :
    (s.advance copy n).Sums low high (xs ++ s.buf.take n) where
  adler := by
    rw [byteSum_append, ← Nat.add_assoc]
    exact h.adler.add_right _
  sum2 := by
    rw [runningSum_append, ← Nat.add_assoc]
    exact h.sum2.add (runningSum_modEq h.adler _)

theorem AdlerState.Sums.rebase (h : s.Sums low high xs) : s.rebase.Sums low high xs where
  adler := (Nat.mod_modEq _ _).trans h.adler
  sum2 := (Nat.mod_modEq _ _).trans h.sum2

/-- From halves of 16 bits on, `NMAX` bytes fit. -/
theorem AdlerState.room_of_le (h1 : s.adler < 2 ^ 16) (h2 : s.sum2 < 2 ^ 16) : s.Room nmax := by
  have hlen : (s.buf.take nmax).length ≤ 5552 := by
    rw [List.length_take]
    exact Nat.min_le_left _ _
  have hbytes := byteSum_le (s.buf.take nmax)
  have hrun := runningSum_le (s.buf.take nmax)
  have hsq := Nat.mul_le_mul hlen (show (s.buf.take nmax).length + 1 ≤ 5553 by omega)
  have hmul := Nat.mul_le_mul (show s.adler ≤ 65535 by omega) hlen
  refine ⟨by omega, ?_⟩
  rw [runningSum_start]
  omega

theorem AdlerState.rebase_lt (s : AdlerState) :
    s.rebase.adler < adlerBase ∧ s.rebase.sum2 < adlerBase :=
  ⟨Nat.mod_lt _ (by decide), Nat.mod_lt _ (by decide)⟩

end Sums

section Blocks
variable {A : WordArith} {order : ByteOrder} {low high : Nat}

variable (order) in
/-- The blocks leave less than `NMAX` bytes, which fit; when they leave none, the sums are
reduced. -/
theorem AdlerState.blocks_spec (hA : A.Exact) {n len : Nat} {xs : List UInt8} {s : AdlerState}
    (h8 : n % 8 = 0) (hpos : 0 < n) (hlen : s.buf.length = len) (hroom : s.Room n)
    (hzero : len = 0 → s.adler < adlerBase ∧ s.sum2 < adlerBase) (h : s.Sums low high xs) :
    ∃ len' s', s.blocks A order n len = some (len', s') ∧ s'.buf.length = len' ∧ s'.Room len' ∧
      (len' = 0 → s'.adler < adlerBase ∧ s'.sum2 < adlerBase) ∧
      ∃ ys, xs ++ s.buf = ys ++ s'.buf ∧ s'.Sums low high ys := by
  induction len using Nat.strong_induction_on generalizing n xs s with
  | h len ih =>
    unfold AdlerState.blocks
    split
    · next hc =>
      rw [AdlerState.block_eq hA h8 hpos (by omega) hroom, Option.bind_some]
      have hlt := (s.advance false n).rebase_lt
      have hbase : adlerBase < 2 ^ 16 := by decide
      have hbuf : (s.advance false n).rebase.buf = s.buf.drop n := rfl
      obtain ⟨len', s', h1, h2, h3, h4, ys, h5, h6⟩ := ih (len - n) (by omega)
        (n := nmaxAligned8) (by decide) (by decide) (by rw [hbuf, List.length_drop, hlen])
        ((AdlerState.room_of_le (hlt.1.trans hbase) (hlt.2.trans hbase)).mono (by decide))
        (fun _ => hlt) (h.advance false n).rebase
      refine ⟨len', s', h1, h2, h3, h4, ys, ?_, h6⟩
      rw [← h5, hbuf, List.append_assoc, List.take_append_drop]
    · next hc =>
      exact ⟨len, s, rfl, hlen, hroom.mono (by omega), hzero, xs, rfl, h⟩

/-- The tail finishes the sums, and packs them. -/
theorem AdlerState.copyTail_eq (hA : A.Exact) (copy rebase : Bool) {len : Nat} {xs : List UInt8}
    {s : AdlerState} (hlen : s.buf.length = len) (hroom : s.Room len)
    (hrebase : rebase = false → len = 0 ∧ s.adler < adlerBase ∧ s.sum2 < adlerBase)
    (h : s.Sums low high xs) :
    s.copyTail A order copy rebase len =
      some ((low + byteSum (xs ++ s.buf)) % adlerBase +
        2 ^ 16 * ((high + runningSum low (xs ++ s.buf)) % adlerBase),
        if copy then s.dst ++ s.buf else s.dst) := by
  have htail : (if len ≠ 0 then s.tailBytes A order copy len else some s) =
      some (s.advance copy len) := by
    split
    · exact AdlerState.tailBytes_eq hA hlen.ge hroom
    · next hz =>
      rw [show len = 0 by omega, AdlerState.advance_zero]
  have hsums := h.advance copy len
  rw [List.take_of_length_le hlen.le] at hsums
  have hbase : adlerBase = 65521 := rfl
  have hpack : ∀ a b, a < adlerBase → b < adlerBase →
      a ||| (b <<< 16) % 2 ^ 32 = a + 2 ^ 16 * b := by
    intro a b ha hb
    rw [Nat.shiftLeft_eq, Nat.mod_eq_of_lt (by omega), Nat.mul_comm b, Nat.or_comm,
      ← Nat.two_pow_add_eq_or_of_lt (show a < 2 ^ 16 by omega), Nat.add_comm]
  have hdst : (s.advance copy len).dst = if copy then s.dst ++ s.buf else s.dst := by
    simp only [AdlerState.advance, AdlerState.move, List.take_of_length_le hlen.le]
  have hmod : ∀ r, (if rebase = true then (s.advance copy len).rebase else s.advance copy len) = r →
      r.adler = (low + byteSum (xs ++ s.buf)) % adlerBase ∧
      r.sum2 = (high + runningSum low (xs ++ s.buf)) % adlerBase ∧
      r.dst = if copy then s.dst ++ s.buf else s.dst := by
    rintro r rfl
    cases rebase with
    | true => exact ⟨hsums.adler, hsums.sum2, hdst⟩
    | false =>
      obtain ⟨rfl, h1, h2⟩ := hrebase rfl
      rw [AdlerState.advance_zero] at hsums hdst ⊢
      exact ⟨(Nat.mod_eq_of_lt h1).symm.trans hsums.adler,
        (Nat.mod_eq_of_lt h2).symm.trans hsums.sum2, hdst⟩
  obtain ⟨h1, h2, h3⟩ := hmod _ rfl
  rw [AdlerState.copyTail, htail, Option.map_some]
  dsimp only
  rw [h1, h2, h3, hpack _ _ (Nat.mod_lt _ (by decide)) (Nat.mod_lt _ (by decide))]

end Blocks

/-- Adler-32 by its definition: the sum of the bytes and the sum of the running sums, from the
halves of the start value on. -/
def adler32Sums (adler : UInt32) (buf : List UInt8) : Nat :=
  let low := adler.toNat % 2 ^ 16
  let high := adler.toNat / 2 ^ 16
  (low + byteSum buf) % adlerBase + 2 ^ 16 * ((high + runningSum low buf) % adlerBase)

theorem adler32C_exact {A : WordArith} (hA : A.Exact) (order : ByteOrder) (adler : UInt32)
    (addr : Nat) (buf : List UInt8) :
    adler32C A order adler addr buf = some (adler32Sums adler buf) := by
  have hadler := adler.toNat_lt
  have hhigh : (adler.toNat >>> 16) % 2 ^ 16 = adler.toNat / 2 ^ 16 := by
    rw [Nat.shiftRight_eq_div_pow, Nat.mod_eq_of_lt (by omega)]
  have hn : nmax = 5552 := rfl
  unfold adler32C adler32Sums
  simp only [hhigh]
  set s : AdlerState := ⟨adler.toNat % 2 ^ 16, adler.toNat / 2 ^ 16, [], buf, addr⟩
  have hroom : s.Room nmax := AdlerState.room_of_le (Nat.mod_lt _ (by decide))
    (show adler.toNat / 2 ^ 16 < 2 ^ 16 by omega)
  have hsums : s.Sums (adler.toNat % 2 ^ 16) (adler.toNat / 2 ^ 16) [] :=
    ⟨Nat.ModEq.refl _, Nat.ModEq.refl _⟩
  split
  · next hlt =>
    have hshort : s.buf.length ≤ nmax := by
      change buf.length ≤ nmax
      omega
    rw [AdlerState.copyTail_eq hA false true rfl (hroom.mono hshort)
      (fun h => absurd h.symm Bool.false_ne_true) hsums]
    rfl
  · next hge =>
    have hdiff : alignDiff8 addr ≤ 7 := by
      simp only [alignDiff8]
      omega
    have haligned : nmaxAligned8 = 5552 := by decide
    -- the head takes what its block has less
    obtain ⟨n, h8, hpos, hle, hhead⟩ : ∃ n, n % 8 = 0 ∧ 0 < n ∧ alignDiff8 addr + n ≤ nmax ∧
        s.alignHead A (alignDiff8 addr) = some (n, s.advance false (alignDiff8 addr)) := by
      unfold AdlerState.alignHead
      split
      · refine ⟨alignDown8 (nmaxAligned8 - alignDiff8 addr), ?_, ?_, ?_, ?_⟩
        · simp only [alignDown8, Nat.mul_mod_left]
        · simp only [alignDown8]
          omega
        · simp only [alignDown8]
          omega
        · rw [AdlerState.copyAlign_eq hA (hroom.mono (by omega)), Option.map_some]
      · next hz =>
        refine ⟨nmaxAligned8, by decide, by decide, by omega, ?_⟩
        rw [show alignDiff8 addr = 0 by omega, AdlerState.advance_zero]
    have hlen : (s.advance false (alignDiff8 addr)).buf.length = buf.length - alignDiff8 addr := by
      rw [AdlerState.advance_buf, List.length_drop]
    obtain ⟨len, s', hb, hl, hr, hz, ys, hys, hs'⟩ := AdlerState.blocks_spec order hA
      h8 hpos hlen (@AdlerState.Room.split false _ _ _ (hroom.mono hle)).2
      (fun h => by omega) (hsums.advance false (alignDiff8 addr))
    rw [List.nil_append, AdlerState.advance_buf, List.take_append_drop] at hys
    simp only [hhead, hb, Option.bind_eq_bind, Option.bind_some]
    rw [AdlerState.copyTail_eq hA false _ hl hr (fun h => ?_) hs', ← hys]
    · rfl
    · have hlen0 : len = 0 := by simpa using h
      exact ⟨hlen0, hz hlen0⟩

/-- The checksum and its copying variant agree with the definition, in whatever byte order the
words are loaded; with the checked arithmetic no lane and no accumulator overflows. -/
theorem adler32C_correct (order : ByteOrder) (adler : UInt32) (addr : Nat) (buf : List UInt8) :
    adler32C .wrapping order adler addr buf = some (adler32Sums adler buf) ∧
    adler32CopyC .wrapping order adler addr buf = some (adler32Sums adler buf, buf) ∧
    adler32C .checked order adler addr buf = some (adler32Sums adler buf) := by
  have hwrap := adler32C_exact WordArith.wrapping_exact order adler addr buf
  refine ⟨hwrap, ?_, adler32C_exact WordArith.checked_exact order adler addr buf⟩
  simp only [adler32CopyC, hwrap, Option.bind_eq_bind, Option.bind_some, Option.pure_def]

/-- The byte by byte checksum of the decoder is the same number. -/
theorem adler32_eq_sums {adler : UInt32} (h1 : adler.toNat % 2 ^ 16 < adlerBase)
    (h2 : adler.toNat / 2 ^ 16 < adlerBase) (buf : List UInt8) :
    adler32 adler.toNat buf = adler32Sums adler buf := by
  have hstep : ∀ (bytes : List UInt8) (a b : Nat), a < adlerBase → b < adlerBase →
      bytes.foldl adlerDo1 (a + 2 ^ 16 * b) = (a + byteSum bytes) % adlerBase +
        2 ^ 16 * ((b + runningSum a bytes) % adlerBase) := by
    have hbase : adlerBase = 65521 := rfl
    intro bytes
    induction bytes with
    | nil =>
      intro a b ha hb
      simp [runningSum, Nat.mod_eq_of_lt ha, Nat.mod_eq_of_lt hb]
    | cons x bytes ih =>
      intro a b ha hb
      have hlow : (a + 2 ^ 16 * b) % 2 ^ 16 = a := by omega
      have hhigh : (a + 2 ^ 16 * b) / 2 ^ 16 = b := by omega
      rw [List.foldl_cons, adlerDo1, hlow, hhigh, ih _ _ (Nat.mod_lt _ (by decide)) (Nat.mod_lt _ (by decide))]
      have hmod : (a + x.toNat) % adlerBase ≡ a + x.toNat [MOD adlerBase] := Nat.mod_modEq _ _
      congr 1
      · rw [byteSum_cons, ← Nat.add_assoc]
        exact hmod.add_right _
      · congr 1
        rw [runningSum, ← Nat.add_assoc]
        exact ((Nat.mod_modEq _ _).trans (hmod.add_left b)).add (runningSum_modEq hmod bytes)
  have h := hstep buf (adler.toNat % 2 ^ 16) (adler.toNat / 2 ^ 16) h1 h2
  rw [Nat.mod_add_div] at h
  exact h

end ZlibNg
