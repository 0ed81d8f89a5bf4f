import ZlibNg.Inflate.Window
import ZlibNg.Bits.Wide

/-! `inflate_fast` decodes the symbols at the front of its input, one after another. -/
namespace ZlibNg

theorem extra_mod (y l extra : Nat) : (y % 2 ^ (l + extra)) >>> l = y / 2 ^ l % 2 ^ extra :=
  mod_shift y l extra

/-- The registers after `c` bits of the input of `a`. -/
structure FastRegs.At (e : FastEnv) (a : BitReader) (r : FastRegs) (c k : Nat) : Prop where
  wide : WideAt a c k r.in_ r.hold r.bits
  bits_lt : r.bits < 64
  room : r.room + r.out.length = e.start
  loads : ∀ p ∈ r.loads, a.next ≤ p ∧ p + 8 ≤ a.next + a.have_

namespace FastRegs.At
variable {e : FastEnv} {a : BitReader} {r : FastRegs} {c k : Nat}

theorem dropBits (h : r.At e a c k) {n : Nat} (hn : n ≤ r.bits) :
    (r.dropBits n).At e a (c + n) (k - n) :=
  ⟨h.wide.drop hn, Nat.lt_of_le_of_lt (Nat.sub_le _ _) h.bits_lt, h.room, h.loads⟩

theorem refill (he : e.mem = a.mem) (h : r.At e a c k) (hin : r.in_ + 8 ≤ a.next + a.have_) :
    (r.refill e).At e a c 64 := by
  refine ⟨?_, ?_, h.room, ?_⟩
  · have := h.wide.refill hin h.bits_lt
    rwa [← he] at this
  · have harith : ∀ b < 64, b ||| 56 < 64 := by decide
    exact harith _ h.bits_lt
  · intro p hp
    rcases List.mem_cons.mp hp with rfl | hp
    · exact ⟨h.wide.ge, hin⟩
    · exact h.loads p hp

theorem put (h : r.At e a c k) (hroom : 1 ≤ r.room) (b : UInt8) : (r.put b).At e a c k := by
  refine ⟨h.wide, h.bits_lt, ?_, h.loads⟩
  have := h.room
  simp only [FastRegs.put, List.length_cons]
  omega

theorem withSt (h : r.At e a c k) (s : InflateState) : { r with st := s }.At e a c k :=
  ⟨h.wide, h.bits_lt, h.room, h.loads⟩

theorem mod (h : r.At e a c k) {n : Nat} (hn : n ≤ r.bits) :
    r.hold % 2 ^ n = a.stream.val / 2 ^ c % 2 ^ n := h.wide.mod hn

/-- The bits held are there. -/
theorem le_len (h : r.At e a c k) : c + r.bits ≤ a.stream.len := by
  have hpos := h.wide.pos
  have hle := h.wide.le
  have hge := h.wide.ge
  rw [BitReader.stream_len]
  omega

/-- The extra bits after a code of `l` bits. -/
theorem extraBits (h : r.At e a c k) {l extra : Nat} (hl : l ≤ 15) (hn : l + extra ≤ r.bits)
    (val : Nat) : extraBits r.hold { op := 16 + l, bits := l + extra, val := val } (16 + l) =
      a.stream.val / 2 ^ (c + l) % 2 ^ extra := by
  rw [ZlibNg.extraBits, maxBits, (base_op hl).2.1, h.mod hn, extra_mod, Nat.div_div_eq_div_mul,
    ← Nat.pow_add]

end FastRegs.At

/-- What an iteration that begins with `r` after `c` bits comes to: symbols, and then the loop
goes on, or something that ends it. -/
def FastRegs.Iter.Spec (e : FastEnv) (a : BitReader) (r : FastRegs) (c : Nat) : Iter → Prop
  | .next r' => ∃ c' k', r'.At e a c' k' ∧ c < c' ∧ 10 ≤ r'.bits ∧ r'.st = r.st ∧
      Decodes r.st (a.stream.drop c) (r.out ++ r.st.windowHist) (a.stream.drop c')
        (r'.out ++ r.st.windowHist)
  | .stop r' => ∃ c' n k', r'.At e a (c' + n) k' ∧ c < c' + n ∧
      Decodes r.st (a.stream.drop c) (r.out ++ r.st.windowHist) (a.stream.drop c')
        (r'.out ++ r.st.windowHist) ∧
      Stops r.st (r'.out ++ r.st.windowHist) r'.room (a.stream.drop c') n r'.st

/-- What a call of `inflate_fast` is given. -/
structure FastEnv.Ok (e : FastEnv) (a : BitReader) (s : InflateState) : Prop where
  mem : e.mem = a.mem
  window : e.window = fun _ i => s.window i
  tables : TablesOk s
  whave : s.whave ≤ s.wsize
  last : e.last = a.next + a.have_ - 14

namespace FastRegs
variable {e : FastEnv} {a : BitReader} {r : FastRegs} {c k : Nat}

theorem dropBits_dropBits (r : FastRegs) (m n : Nat) :
    (r.dropBits m).dropBits n = r.dropBits (m + n) := by
  simp only [dropBits, Nat.shiftRight_add, Nat.sub_sub]

/-- A match of which length and distance are known. -/
theorem matchTo_spec (he : e.Ok a r.st) (h : r.At e a (c + m) k) (hm : 0 < m) (hbits : 10 ≤ r.bits)
    {len dist : Nat} (hlen : len ≤ 258) (hdist : 0 < dist)
    (hroom : e.safeMode = false → 258 ≤ r.room)
    (hr : Reads r.st (a.stream.drop c) (.copy len dist) m) :
    Iter.Spec e a r c (matchTo e len dist r) := by
  have hout : e.start - r.room = r.out.length := by
    have := h.room
    omega
  unfold matchTo
  split
  · next hshort => exact ⟨c, m, k, h.withSt _, by omega, .refl _ _, .handOver hr hshort.2⟩
  · next hshort =>
    have hspace : len ≤ r.room := by
      by_contra hlt
      rcases hsafe : e.safeMode with _ | _
      · have := hroom hsafe
        omega
      · exact hshort ⟨hsafe, by omega⟩
    split
    · next hfar =>
      refine ⟨c, m, k, h.withSt _, by omega, .refl _ _, .tooFar hr ?_ hspace⟩
      simp only [List.length_append, InflateState.length_windowHist, setBad]
      omega
    · next hnear =>
      have hcopy := copy_out he.window he.whave hout hdist (by omega) len
      refine ⟨c + m, k, ⟨h.wide, h.bits_lt, ?_, h.loads⟩, by omega, hbits, rfl,
        .copy hr (by simp; omega) ?_⟩
      · have hl := congrArg List.length hcopy
        have hr := h.room
        simp only [List.length_append, length_copyMatch] at hl
        simp only [copy] at hl ⊢
        omega
      · rw [hcopy, BitStream.drop_drop]
        exact .refl _ _

/-- A length, read up to its distance code: `n` bits of the stream `v`. -/
structure ReadsLen (s : InflateState) (v : BitStream) (len n : Nat) : Prop where
  le : len ≤ 258
  pos : 0 < n
  code : ∃ l extra val, l ≤ 15 ∧ s.lenCode v.val = { op := 16 + l, bits := l + extra, val := val } ∧
    n = s.lenSize v.val + extra ∧ len = val + v.val / 2 ^ s.lenSize v.val % 2 ^ extra

/-- The distance entry that the table selects, after the bits of a link to it. -/
theorem dodist_final (he : e.Ok a r.st) (h : r.At e a (c + n) k) (hbits : 38 ≤ r.bits) {len : Nat}
    (hlen : ReadsLen r.st (a.stream.drop c) len n) (hroom : e.safeMode = false → 258 ≤ r.room)
    {l : Nat} (h15 : (select r.st.distcode r.st.distbits (a.stream.val / 2 ^ (c + n))).1 + l ≤ 15)
    (hp : DistEntry l (r.st.distCode (a.stream.val / 2 ^ (c + n)))) (fuel : Nat) :
    Iter.Spec e a r c (dodist e len (fuel + 1) (r.st.distCode (a.stream.val / 2 ^ (c + n)))
      (r.dropBits (select r.st.distcode r.st.distbits (a.stream.val / 2 ^ (c + n))).1)) := by
  obtain ⟨hle, hpos, l₀, extra₀, val₀, hl₀, hc, hn, hval⟩ := hlen
  have hdiv := BitStream.drop_val_div a.stream c
  have hsize : r.st.distSize (a.stream.val / 2 ^ (c + n)) =
      (select r.st.distcode r.st.distbits (a.stream.val / 2 ^ (c + n))).1 +
        (r.st.distCode (a.stream.val / 2 ^ (c + n))).codeBits := rfl
  have hlen := h.le_len
  generalize hd : r.st.distCode (a.stream.val / 2 ^ (c + n)) = here at hp hsize ⊢
  generalize (select r.st.distcode r.st.distbits (a.stream.val / 2 ^ (c + n))).1 = pre at *
  have hdrop := h.dropBits (n := pre) (by omega)
  rw [hp.codeBits_eq (by omega)] at hsize
  cases hp with
  | base extra val hx hv hm =>
    have hop := base_op (show l ≤ 15 by omega)
    have hx' : l + extra ≤ (r.dropBits pre).bits := by
      change l + extra ≤ r.bits - pre
      omega
    simp only [dodist, hop.1, ne_eq, OfNat.ofNat_ne_zero, not_false_eq_true, ↓reduceIte]
    rw [hdrop.extraBits (by omega) hx', dropBits_dropBits]
    have hread : Reads r.st (a.stream.drop c) (.copy len (val + a.stream.val / 2 ^ (c + n + pre + l) % 2 ^ extra))
        (n + (pre + l) + extra) := by
      have := Reads.copy (s := r.st) (v := a.stream.drop c) l₀ extra₀ val₀ l extra val n
        (n + r.st.distSize ((a.stream.drop c).val / 2 ^ n)) hl₀ (by omega) hc hn
        (by rw [hdiv, hd]) rfl (by rw [hdiv, hsize, BitStream.drop_len]; omega)
      rwa [← hval, hdiv n, hsize, hdiv, show c + (n + (pre + l)) = c + n + pre + l by omega] at this
    refine matchTo_spec (r := r.dropBits (pre + (l + extra))) (m := n + (pre + l) + extra)
      (k := k - (pre + (l + extra))) he ?_ (by omega) ?_ hle (by omega) hroom hread
    · have := h.dropBits (n := pre + (l + extra)) (by omega)
      rwa [show c + n + (pre + (l + extra)) = c + (n + (pre + l) + extra) by omega] at this
    · change 10 ≤ r.bits - (pre + (l + extra))
      omega
  | invalid =>
    have hread : Reads r.st (a.stream.drop c) .badDist (n + (pre + l)) := by
      have := Reads.badDist (s := r.st) (v := a.stream.drop c) l₀ extra₀ val₀ l n hl₀ hc hn
        (by rw [hdiv, hd]) (by rw [hdiv, hsize, BitStream.drop_len]; omega)
      rwa [hdiv n, hsize] at this
    have hat := h.dropBits (n := pre + l) (by omega)
    rw [show c + n + (pre + l) = c + (n + (pre + l)) by omega] at hat
    simp only [dodist, dropBits_dropBits]
    exact ⟨c, n + (pre + l), _, hat.withSt _, by omega, .refl _ _, .badDist hread⟩

/-- The distance code after a length, and the match. -/
theorem dodist_spec (he : e.Ok a r.st) (h : r.At e a (c + n) k) (hbits : 38 ≤ r.bits) {len : Nat}
    (hlen : ReadsLen r.st (a.stream.drop c) len n) (hroom : e.safeMode = false → 258 ≤ r.room)
    (fuel : Nat) : Iter.Spec e a r c (dodist e len (fuel + 2)
      (r.st.distcode (a.stream.val / 2 ^ (c + n) % 2 ^ r.st.distbits)) r) := by
  have hfinal := fun l h15 hp fuel => dodist_final he h hbits hlen hroom (l := l) h15 hp fuel
  simp only [InflateState.distCode] at hfinal
  have hroot := he.tables.distbits
  rcases he.tables.dist.select_cases he.tables.distbits_le distLink.op (a.stream.val / 2 ^ (c + n)) with
    ⟨hd, l, h1, hl, hp⟩ | ⟨curr, next, hv, h1, h15, l, hl1, hlc, hp⟩
  · simp only [select, if_neg hd] at hfinal
    exact hfinal l (by omega) hp (fuel + 1)
  · have hc : 1 ≤ curr ∧ curr ≤ 15 := by omega
    simp only [select, hv, if_pos hc] at hfinal
    have hop := link_op hc.2
    have hmod := (h.dropBits (n := r.st.distbits) (by omega)).mod (n := curr)
      (by change curr ≤ r.bits - r.st.distbits; omega)
    rw [Nat.pow_add, ← Nat.div_div_eq_div_mul] at hmod
    rw [hv, dodist]
    simp only [hop.1, hop.2.2.2.1, ne_eq, not_true_eq_false, ↓reduceIte, bitsN]
    rw [hmod]
    exact hfinal l (by omega) hp fuel

/-- The entry of a literal/length code, after the bits of a link to it. -/
theorem dolen_final (he : e.Ok a r.st) (h : r.At e a c k) (hbits : 36 ≤ r.bits)
    (hin : r.in_ + 8 ≤ a.next + a.have_) (hroom : 1 ≤ r.room)
    (hroom' : e.safeMode = false → 258 ≤ r.room) {l : Nat} (hl : 1 ≤ l)
    (h15 : (select r.st.lencode r.st.lenbits (a.stream.val / 2 ^ c)).1 + l ≤ 15)
    (hp : LenEntry l (r.st.lenCode (a.stream.val / 2 ^ c))) (fuel : Nat) :
    Iter.Spec e a r c (dolen e (fuel + 1) (r.st.lenCode (a.stream.val / 2 ^ c))
      (r.dropBits (select r.st.lencode r.st.lenbits (a.stream.val / 2 ^ c)).1)) := by
  have hsize : r.st.lenSize (a.stream.val / 2 ^ c) =
      (select r.st.lencode r.st.lenbits (a.stream.val / 2 ^ c)).1 +
        (r.st.lenCode (a.stream.val / 2 ^ c)).codeBits := rfl
  have hlen := h.le_len
  have hval : (a.stream.drop c).val = a.stream.val / 2 ^ c := rfl
  generalize hd : r.st.lenCode (a.stream.val / 2 ^ c) = here at hp hsize ⊢
  generalize (select r.st.lencode r.st.lenbits (a.stream.val / 2 ^ c)).1 = pre at *
  have hcb := hp.le_codeBits (by omega)
  have hfit : r.st.lenSize (a.stream.drop c).val ≤ (a.stream.drop c).len := by
    rw [hval, BitStream.drop_len]
    omega
  have hat := fun n (hn : pre + n ≤ r.bits) => h.dropBits (n := pre + n) hn
  cases hp with
  | lit val hv =>
    have hcode : Code.codeBits { op := 0, bits := l, val := val } = l := by simp [Code.codeBits]
    have hread := Reads.lit (s := r.st) (v := a.stream.drop c) l val hv (by rw [hval, hd]) hfit
    rw [hval, hsize, hcode] at hread
    rw [hcode] at hsize
    simp only [dolen, ↓reduceIte, dropBits_dropBits]
    refine ⟨c + (pre + l), _, (hat l (by omega)).put hroom _, by omega, ?_, rfl, .lit hread ?_⟩
    · change 10 ≤ r.bits - (pre + l)
      omega
    · rw [BitStream.drop_drop]
      exact .refl _ _
  | base extra val hx hv hm =>
    have hop := base_op (show l ≤ 15 by omega)
    have hcode : Code.codeBits { op := 16 + l, bits := l + extra, val := val } = l := by
      simp [Code.codeBits, hop]
    rw [hcode] at hsize
    have hpos := Nat.two_pow_pos extra
    have hmod := Nat.mod_lt (a.stream.val / 2 ^ (c + (pre + l))) hpos
    have hread : ReadsLen r.st (a.stream.drop c)
        (val + a.stream.val / 2 ^ (c + (pre + l)) % 2 ^ extra) (pre + (l + extra)) := by
      refine ⟨by omega, by omega, l, extra, val, by omega, by rw [hval, hd], ?_, ?_⟩
      · rw [hval, hsize, Nat.add_assoc]
      · rw [BitStream.drop_val_div, hval, hsize]
    have hx' : l + extra ≤ (r.dropBits pre).bits := by
      change l + extra ≤ r.bits - pre
      omega
    have hextra := (h.dropBits (n := pre) (by omega)).extraBits (by omega) hx' val
    have hafter := hat (l + extra) (by omega)
    have hlook := hafter.mod (n := r.st.distbits) (by
      have := he.tables.distbits
      change r.st.distbits ≤ r.bits - (pre + (l + extra))
      omega)
    have hst : (r.dropBits (pre + (l + extra))).st = r.st := rfl
    simp only [dolen, doop, hop.1, ne_eq, OfNat.ofNat_ne_zero, not_false_eq_true, ↓reduceIte,
      dropBits_dropBits, Nat.add_eq_zero_iff, false_and]
    rw [hextra, hst, hlook, Nat.add_assoc c pre l]
    split
    · have hrefill := hafter.refill he.mem hin
      refine dodist_spec (r := (r.dropBits (pre + (l + extra))).refill e) he hrefill ?_ hread hroom' _
      have harith : ∀ b < 64, 38 ≤ b ||| 56 := by decide
      exact harith _ hafter.bits_lt
    · next hmany =>
      simp only [maxBits, maxDistExtraBits, maxLenRootBits] at hmany
      exact dodist_spec (r := r.dropBits (pre + (l + extra))) he hafter (by omega) hread hroom' _
  | eob =>
    have hcode : Code.codeBits { op := 96, bits := l, val := 0 } = l := by simp [Code.codeBits]
    have hread := Reads.endBlock (s := r.st) (v := a.stream.drop c) l (by rw [hval, hd]) hfit
    rw [hval, hsize, hcode] at hread
    rw [hcode] at hsize
    have hstop : dolen e (fuel + 1) { op := 96, bits := l, val := 0 } (r.dropBits pre) =
        .stop { r.dropBits (pre + l) with st := { r.st with mode := .type } } := by
      rw [← dropBits_dropBits]
      simp only [dolen, doop]
      rfl
    rw [hstop]
    exact ⟨c, pre + l, _, (hat l (by omega)).withSt _, by omega, .refl _ _, .endBlock hread⟩
  | invalid op bits ho hb1 hb2 =>
    have hcode : Code.codeBits { op := op, bits := bits, val := 0 } = bits := by
      rcases ho with rfl | rfl | rfl <;> simp [Code.codeBits]
    have hread := Reads.badLen (s := r.st) (v := a.stream.drop c) op bits ho (by rw [hval, hd]) hfit
    rw [hval, hsize, hcode] at hread
    rw [hcode] at hsize
    have hstop : dolen e (fuel + 1) { op := op, bits := bits, val := 0 } (r.dropBits pre) =
        .stop ((r.dropBits (pre + bits)).setBad "invalid literal/length code") := by
      rw [← dropBits_dropBits]
      rcases ho with rfl | rfl | rfl <;> simp [dolen, doop]
    rw [hstop]
    exact ⟨c, pre + bits, _, (hat bits (by omega)).withSt _, by omega, .refl _ _, .badLen hread⟩

/-- A literal/length code with all that follows it. -/
theorem dolen_spec (he : e.Ok a r.st) (h : r.At e a c k) (hbits : 36 ≤ r.bits)
    (hin : r.in_ + 8 ≤ a.next + a.have_) (hroom : 1 ≤ r.room)
    (hroom' : e.safeMode = false → 258 ≤ r.room) (fuel : Nat) :
    Iter.Spec e a r c (dolen e (fuel + 2)
      (r.st.lencode (a.stream.val / 2 ^ c % 2 ^ r.st.lenbits)) r) := by
  have hfinal := fun l hl h15 hp fuel =>
    dolen_final he h hbits hin hroom hroom' (l := l) hl h15 hp fuel
  simp only [InflateState.lenCode] at hfinal
  have hroot := he.tables.lenbits
  simp only [maxLenRootBits] at hroot
  rcases he.tables.len.select_cases he.tables.lenbits_le lenLink.op (a.stream.val / 2 ^ c) with
    ⟨hd, l, h1, hl, hp⟩ | ⟨curr, next, hv, h1, h15, l, hl1, hlc, hp⟩
  · simp only [select, if_neg hd] at hfinal
    exact hfinal l h1 (by omega) hp (fuel + 1)
  · have hc : 1 ≤ curr ∧ curr ≤ 15 := by omega
    simp only [select, hv, if_pos hc] at hfinal
    have hop := link_op hc.2
    have hmod := (h.dropBits (n := r.st.lenbits) (by omega)).mod (n := curr)
      (by change curr ≤ r.bits - r.st.lenbits; omega)
    rw [Nat.pow_add, ← Nat.div_div_eq_div_mul] at hmod
    rw [hv, dolen]
    simp only [doop, hop.1, hop.2.2.2.1, ne_eq, not_true_eq_false, ↓reduceIte, bitsN,
      show curr ≠ 0 by omega]
    rw [hmod]
    exact hfinal l hl1 (by omega) hp fuel

/-- Symbols decoded before come first. -/
theorem Iter.Spec.after {r₁ : FastRegs} {c₁ : Nat} {i : Iter} (hst : r₁.st = r.st) (hc : c ≤ c₁)
    (hd : Decodes r.st (a.stream.drop c) (r.out ++ r.st.windowHist) (a.stream.drop c₁)
      (r₁.out ++ r.st.windowHist)) (h : Iter.Spec e a r₁ c₁ i) : Iter.Spec e a r c i := by
  cases i with
  | next r' =>
    obtain ⟨c', k', h1, h2, h3, h4, h5⟩ := h
    rw [hst] at h4 h5
    exact ⟨c', k', h1, by omega, h3, h4, hd.trans h5⟩
  | stop r' =>
    obtain ⟨c', n, k', h1, h2, h3, h4⟩ := h
    rw [hst] at h3 h4
    exact ⟨c', n, k', h1, by omega, hd.trans h3, h4⟩

/-- A literal that the first-level table has. -/
theorem literal_spec (he : e.Ok a r.st) (h : r.At e a c k) (hbits : 10 ≤ r.bits)
    (hroom : 1 ≤ r.room) {here : Code}
    (hhere : r.st.lencode (a.stream.val / 2 ^ c % 2 ^ r.st.lenbits) = here) (h0 : here.op = 0) :
    here.bits ≤ 10 ∧
    ((r.dropBits here.bits).put (UInt8.ofNat here.val)).At e a (c + here.bits) (k - here.bits) ∧
    Decodes r.st (a.stream.drop c) (r.out ++ r.st.windowHist) (a.stream.drop (c + here.bits))
      (UInt8.ofNat here.val :: r.out ++ r.st.windowHist) := by
  have hroot := he.tables.lenbits
  simp only [maxLenRootBits] at hroot
  have hsel : select r.st.lencode r.st.lenbits (a.stream.val / 2 ^ c) = (0, here) := by
    have hd : ¬ (1 ≤ here.op ∧ here.op ≤ 15) := by omega
    simp only [select, hhere, if_neg hd]
  obtain ⟨l, h1, hl, hp⟩ : ∃ l, 1 ≤ l ∧ l ≤ 10 ∧ LenEntry l here := by
    rcases he.tables.len.select_cases he.tables.lenbits_le lenLink.op (a.stream.val / 2 ^ c) with
      ⟨hd, l, h1, hl, hp⟩ | ⟨curr, next, hv, h1, -⟩
    · exact ⟨l, h1, by omega, hhere ▸ hp⟩
    · rw [hhere] at hv
      rw [hv] at h0
      simp only at h0
      omega
  have hlen := h.le_len
  cases hp with
  | lit val hv =>
    have hcode : Code.codeBits { op := 0, bits := l, val := val } = l := by simp [Code.codeBits]
    have hread := Reads.lit (s := r.st) (v := a.stream.drop c) l val hv
      (by rw [InflateState.lenCode, BitStream.drop_val, hsel])
      (by
        rw [InflateState.lenSize, selectBits, BitStream.drop_val, hsel, BitStream.drop_len, hcode]
        omega)
    rw [InflateState.lenSize, selectBits, BitStream.drop_val, hsel, hcode, Nat.zero_add] at hread
    refine ⟨hl, (h.dropBits (by dsimp only; omega)).put hroom _, .lit hread ?_⟩
    rw [BitStream.drop_drop]
    exact .refl _ _
  | base => simp only at h0; omega
  | eob => cases h0
  | invalid op bits ho => simp only at h0; omega

theorem doop_eq (e : FastEnv) (r : FastRegs) {here : Code} (h : here.op ≠ 0) (fuel : Nat) :
    doop e r.hold here (r.dropBits here.bits) (dolen e fuel) = dolen e (fuel + 1) here r := by
  rw [dolen, if_neg h]

/-- One iteration, from a position at which both loads stay in the input. -/
theorem iteration_spec (he : e.Ok a r.st) (h : r.At e a c k) (hbits : 10 ≤ r.bits)
    (hin : r.in_ + (7 - r.bits / 8 : Nat) + 8 ≤ a.next + a.have_) (hroom : 3 ≤ r.room)
    (hroom' : e.safeMode = false → 260 ≤ r.room) : Iter.Spec e a r c (r.iteration e) := by
  have harith : ∀ b < 64, (63 ^^^ b) >>> 3 = 7 - b / 8 ∧ 56 ≤ b ||| 56 := by decide
  obtain ⟨hadv, hfull⟩ := harith _ h.bits_lt
  have hfill := h.refill he.mem (show r.in_ + 8 ≤ a.next + a.have_ by omega)
  have hin' : (r.refill e).in_ + 8 ≤ a.next + a.have_ := by
    simp only [refill, hadv]
    exact hin
  have hroot := he.tables.lenbits
  simp only [maxLenRootBits] at hroot
  have hlook := h.mod (n := r.st.lenbits) (by omega)
  simp only [iteration]
  rw [hlook]
  generalize hr₁ : r.refill e = r₁ at hfill hin' ⊢
  have hst : r₁.st = r.st := by rw [← hr₁]; rfl
  have hout : r₁.out = r.out := by rw [← hr₁]; rfl
  have hspace : r₁.room = r.room := by rw [← hr₁]; rfl
  have hfull' : 56 ≤ r₁.bits := by rw [← hr₁]; exact hfull
  have he₁ : e.Ok a r₁.st := hst ▸ he
  refine Iter.Spec.after hst le_rfl (by rw [hout]; exact .refl _ _) ?_
  rw [← hst]
  generalize hhere : r₁.st.lencode (a.stream.val / 2 ^ c % 2 ^ r₁.st.lenbits) = here
  split
  · next h0 =>
    obtain ⟨hb, hat, hd⟩ := literal_spec he₁ hfill (by omega) (by omega) hhere h0
    have hbits₂ : 46 ≤ (r₁.dropBits here.bits).bits := by
      change 46 ≤ r₁.bits - here.bits
      omega
    have hspace₂ : r₁.room - 1 = r.room - 1 := by rw [hspace]
    generalize hr₂ : (r₁.dropBits here.bits).put (UInt8.ofNat here.val) = r₂ at hat ⊢
    have hst₂ : r₂.st = r₁.st := by rw [← hr₂]; rfl
    have hout₂ : r₂.out = UInt8.ofNat here.val :: r₁.out := by rw [← hr₂]; rfl
    have hroom₂ : r₂.room = r.room - 1 := by rw [← hr₂]; exact hspace₂
    have hbits₂' : 46 ≤ r₂.bits := by rw [← hr₂]; exact hbits₂
    have hin₂ : r₂.in_ = r₁.in_ := by rw [← hr₂]; rfl
    have he₂ : e.Ok a r₂.st := hst₂ ▸ he₁
    refine Iter.Spec.after hst₂ (Nat.le_add_right c here.bits) (by rw [hout₂]; exact hd) ?_
    have hlook₂ := hat.mod (n := r₂.st.lenbits) (by rw [hst₂, hst]; omega)
    rw [hlook₂]
    generalize hhere₂ : r₂.st.lencode (a.stream.val / 2 ^ (c + here.bits) % 2 ^ r₂.st.lenbits) = here₂
    split
    · next h0₂ =>
      obtain ⟨hb₂, hat₃, hd₃⟩ := literal_spec he₂ hat (by omega) (by omega) hhere₂ h0₂
      have hbits₃ : 36 ≤ (r₂.dropBits here₂.bits).bits := by
        change 36 ≤ r₂.bits - here₂.bits
        omega
      have hspace₃ : r₂.room - 1 = r.room - 2 := by omega
      generalize hr₃ : (r₂.dropBits here₂.bits).put (UInt8.ofNat here₂.val) = r₃ at hat₃ ⊢
      have hst₃ : r₃.st = r₂.st := by rw [← hr₃]; rfl
      have hout₃ : r₃.out = UInt8.ofNat here₂.val :: r₂.out := by rw [← hr₃]; rfl
      have hroom₃ : r₃.room = r.room - 2 := by rw [← hr₃]; exact hspace₃
      have hbits₃' : 36 ≤ r₃.bits := by rw [← hr₃]; exact hbits₃
      have hin₃ : r₃.in_ = r₂.in_ := by rw [← hr₃]; rfl
      refine Iter.Spec.after hst₃ (Nat.le_add_right _ here₂.bits) (by rw [hout₃]; exact hd₃) ?_
      have hlook₃ := hat₃.mod (n := r₃.st.lenbits) (by rw [hst₃, hst₂, hst]; omega)
      rw [hlook₃]
      exact dolen_spec (hst₃ ▸ he₂) hat₃ hbits₃' (by omega) (by omega)
        (fun hs => by have := hroom' hs; omega) 62
    · next h0₂ =>
      rw [doop_eq e r₂ h0₂, ← hhere₂]
      exact dolen_spec he₂ hat (by omega) (by omega) (by omega)
        (fun hs => by have := hroom' hs; omega) 63
  · next h0 =>
    rw [doop_eq e r₁ h0, ← hhere]
    exact dolen_spec he₁ hfill (by omega) hin' (by omega) (fun hs => by have := hroom' hs; omega) 63

/-- What the loop has done, from `r` after `c` bits to `r'`: it stands before a symbol, with
too little input or space, or a symbol has ended it. -/
def LoopSpec (e : FastEnv) (a : BitReader) (r : FastRegs) (c : Nat) (r' : FastRegs) (c' : Nat) :
    Prop :=
  (r'.st = r.st ∧ Decodes r.st (a.stream.drop c) (r.out ++ r.st.windowHist) (a.stream.drop c')
      (r'.out ++ r.st.windowHist) ∧ (r'.in_ < e.last →
        r'.room < if e.safeMode then inflateFastMinSafe else inflateFastMinLeft)) ∨
  ∃ c₁ n, c' = c₁ + n ∧ Decodes r.st (a.stream.drop c) (r.out ++ r.st.windowHist)
      (a.stream.drop c₁) (r'.out ++ r.st.windowHist) ∧
    Stops r.st (r'.out ++ r.st.windowHist) r'.room (a.stream.drop c₁) n r'.st

/-- The loop: every iteration decodes what comes next. -/
theorem loop_spec (he : e.Ok a r.st) (h : r.At e a c k) (hbits : 10 ≤ r.bits)
    (hin : r.in_ + (7 - r.bits / 8 : Nat) + 8 ≤ a.next + a.have_) (hroom : 3 ≤ r.room)
    (hroom' : e.safeMode = false → 260 ≤ r.room) {fuel : Nat} (hfuel : a.stream.len < c + fuel) :
    ∃ c' k', (loop e r fuel).At e a c' k' ∧ c < c' ∧ LoopSpec e a r c (loop e r fuel) c' := by
  induction fuel generalizing r c k with
  | zero =>
    have := h.le_len
    omega
  | succ fuel ih =>
    have hit := iteration_spec he h hbits hin hroom hroom'
    unfold loop
    generalize r.iteration e = i at hit ⊢
    cases i with
    | next r' =>
      obtain ⟨c', k', hat, hc, hbits', hst, hd⟩ := hit
      dsimp only
      by_cases hcond : r'.in_ < e.last ∧
          (if e.safeMode = true then inflateFastMinSafe else inflateFastMinLeft) ≤ r'.room
      · rw [if_pos hcond]
        have hge : r'.in_ + 15 ≤ a.next + a.have_ := by
          have := he.last
          omega
        have hspace : 3 ≤ r'.room ∧ (e.safeMode = false → 260 ≤ r'.room) := by
          have hmin := hcond.2
          rcases hsafe : e.safeMode with _ | _ <;>
            simp only [hsafe, Bool.false_eq_true, ↓reduceIte, inflateFastMinSafe,
              inflateFastMinLeft] at hmin
          · exact ⟨by omega, fun _ => hmin⟩
          · exact ⟨hmin, fun h => by cases h⟩
        obtain ⟨c'', k'', hat', hc', hspec⟩ := ih (r := r') (hst ▸ he) hat hbits' (by omega) hspace.1
          hspace.2 (by omega)
        refine ⟨c'', k'', hat', by omega, ?_⟩
        rw [LoopSpec, hst] at hspec
        rcases hspec with ⟨h1, h2, h3⟩ | ⟨c₁, n, h1, h2, h3⟩
        · exact .inl ⟨h1, hd.trans h2, h3⟩
        · exact .inr ⟨c₁, n, h1, hd.trans h2, h3⟩
      · rw [if_neg hcond]
        refine ⟨c', k', hat, hc, .inl ⟨hst, hd, fun hlt => ?_⟩⟩
        by_contra hge
        exact hcond ⟨hlt, not_lt.mp hge⟩
    | stop r' =>
      obtain ⟨c', n, k', hat, hc, hd, hs⟩ := hit
      exact ⟨c' + n, k', hat, hc, .inr ⟨c', n, rfl, hd, hs⟩⟩

end FastRegs

/-- What `inflate_fast` does from the accumulator `a`, in terms of the symbols in the stream: it
takes `c` bits, and `out` is written on. -/
structure FastResult.Spec (a : BitReader) (s : InflateState) (out : List UInt8) (left : Nat)
    (c : Nat) (f : FastResult) : Prop where
  symbols : (f.st = s ∧ Decodes s a.stream (out ++ s.windowHist) (a.stream.drop c)
      (f.out ++ s.windowHist)) ∨
    ∃ c₁ n, c = c₁ + n ∧ Decodes s a.stream (out ++ s.windowHist) (a.stream.drop c₁)
        (f.out ++ s.windowHist) ∧
      Stops s (f.out ++ s.windowHist) f.availOut (a.stream.drop c₁) n f.st
  space : f.availOut + f.out.length = left + out.length
  loads : ∀ p ∈ f.loads, a.next ≤ p ∧ p + 8 ≤ a.next + a.have_
  le : c ≤ a.stream.len
  size : 0 < c ∧ s.lenSize a.stream.val ≤ c
  /-- What is left is in the accumulator and in the given input, when fewer than eight of the
  bits held at the start are left. -/
  rewind : a.bits < c + 8 → a.next ≤ f.nextIn ∧ f.nextIn + f.availIn = a.next + a.have_ ∧
    0 ≤ f.availIn ∧ f.bits < 8 ∧ (f.acc a.mem).stream = a.stream.drop c

theorem FastRegs.finish_rewind {e : FastEnv} {a : BitReader} {r : FastRegs} {c k : Nat}
    (hlast : e.last = a.next + a.have_ - 14) (h : r.At e a c k) (hc : a.bits < c + 8) :
    let f := r.finish e
    a.next ≤ f.nextIn ∧ f.nextIn + f.availIn = a.next + a.have_ ∧ 0 ≤ f.availIn ∧ f.bits < 8 ∧
      (f.acc a.mem).stream = a.stream.drop c := by
  obtain ⟨h1, h2⟩ := h.wide.rewind hc
  have hsum : (r.finish e).nextIn + (r.finish e).availIn = a.next + a.have_ := by
    simp only [finish, inflateFastMinHave]
    split <;> push_cast <;> omega
  have hle := h.wide.le
  have h8 : r.bits >>> 3 = r.bits / 8 := by rw [Nat.shiftRight_eq_div_pow]
  have h88 : (r.bits >>> 3) <<< 3 = r.bits / 8 * 8 := by rw [Nat.shiftLeft_eq, h8]
  have hnext : (r.finish e).nextIn = r.in_ - (r.bits >>> 3 : Nat) := rfl
  have hbits : (r.finish e).bits = r.bits % 8 := by
    simp only [finish, h88]
    omega
  have havail : (r.finish e).availIn.toNat =
      (a.next + a.have_ - (r.in_ - (r.bits >>> 3 : Nat))).toNat := by
    congr 1
    omega
  have hhold : (r.finish e).hold % 2 ^ (r.finish e).bits =
      r.hold % 2 ^ (r.bits - (r.bits >>> 3) <<< 3) := by
    have hb : r.bits - (r.bits >>> 3) <<< 3 < 8 := by
      rw [h88]
      omega
    have hpow := Nat.pow_le_pow_right (n := 2) (by norm_num) hb.le
    have hlt := Nat.mod_lt r.hold (Nat.two_pow_pos (r.bits - (r.bits >>> 3) <<< 3))
    simp only [finish]
    rw [Nat.mod_eq_of_lt (b := 2 ^ 32) (by omega), Nat.mod_mod]
  refine ⟨by omega, hsum, by omega, by omega, ?_⟩
  rw [← h2]
  congr 1
  simp only [FastResult.acc, BitReader.mk.injEq, true_and]
  exact ⟨hnext, havail, hhold, rfl⟩

section Call
variable {a : BitReader} {s : InflateState} {out : List UInt8} {left start : Nat}
  (safeMode : Bool) (ht : TablesOk s) (hw : s.whave ≤ s.wsize) (hbits : a.bits < 64)
  (hhave : inflateFastMinHave ≤ a.have_) (hleft : inflateFastMinSafe ≤ left)
  (hsafe : safeMode = false → inflateFastMinLeft ≤ left) (hstart : left + out.length = start)

include ht hw hbits hhave hleft hsafe hstart

/-- A call is one run of the loop. -/
theorem inflateFast_loop :
    ∃ (e : FastEnv) (r r' : FastRegs) (c k : Nat), e.safeMode = safeMode ∧ e.start = start ∧
      e.last = a.next + a.have_ - 14 ∧ r.st = s ∧ r.out = out ∧ r'.At e a c k ∧ 0 < c ∧
      FastRegs.LoopSpec e a r 0 r' c ∧
      inflateFast safeMode a.mem (fun _ i => s.window i) start s a.next a.have_ out left a.hold
        a.bits = r'.finish e := by
  simp only [inflateFastMinHave, inflateFastMinSafe, inflateFastMinLeft] at hhave hleft hsafe
  let e : FastEnv := ⟨a.mem, safeMode, a.next + ((a.have_ : Int) - (inflateFastMinHave - 1 : Nat)),
    start, fun _ i => s.window i⟩
  let r : FastRegs := ⟨a.next, a.hold, a.bits, out, left, s, []⟩
  have hlast : e.last = a.next + a.have_ - 14 := by
    simp only [e, inflateFastMinHave]
    push_cast
    omega
  have hok : e.Ok a s := ⟨rfl, rfl, ht, hw, hlast⟩
  have hat : r.At e a 0 r.bits := ⟨.start hbits.le, hbits, hstart, by simp [r]⟩
  have hfill := hat.refill hok.mem (by simp only [r]; omega)
  have harith : ∀ b < 64, (63 ^^^ b) >>> 3 ≤ 7 ∧ 56 ≤ b ||| 56 ∧ (b ||| 56) / 8 = 7 := by decide
  obtain ⟨h1, h2, h3⟩ := harith a.bits hbits
  obtain ⟨c, k, hend, hc, hspec⟩ := FastRegs.loop_spec (r := r.refill e)
    hok hfill (show 10 ≤ a.bits ||| 56 by omega)
    (by simp only [FastRegs.refill, r, h3]; omega) hleft hsafe
    (show a.stream.len < 0 + (8 * a.have_ + a.bits + 1) by rw [BitReader.stream_len]; omega)
  exact ⟨e, r.refill e, _, c, k, rfl, rfl, hlast, rfl, rfl, hend, hc, hspec, rfl⟩

theorem inflateFast_spec :
    ∃ c, (inflateFast safeMode a.mem (fun _ i => s.window i) start s a.next a.have_ out left
      a.hold a.bits).Spec a s out left c := by
  obtain ⟨e, r, r', c, k, -, hstart', hlast, hst, hout, hend, hc, hspec, hf⟩ :=
    inflateFast_loop safeMode ht hw hbits hhave hleft hsafe hstart
  have hlen := hend.le_len
  rw [FastRegs.LoopSpec, BitStream.drop_zero, hst, hout] at hspec
  have hsize : s.lenSize a.stream.val ≤ c := by
    rcases hspec with ⟨-, hd, -⟩ | ⟨c₁, n, rfl, hd, hs⟩
    · have := hd.size_le
      rw [BitStream.drop_len] at this
      rcases this.2 with heq | hle
      · have := congrArg BitStream.len heq
        rw [BitStream.drop_len] at this
        omega
      · change a.stream.len - c + s.lenSize a.stream.val ≤ a.stream.len at hle
        omega
    · have := hd.size_le
      rw [BitStream.drop_len] at this
      rcases this.2 with heq | hle
      · rw [heq] at hs
        have hn : s.lenSize a.stream.val ≤ n := hs.size_le.1
        omega
      · change a.stream.len - c₁ + s.lenSize a.stream.val ≤ a.stream.len at hle
        omega
  refine ⟨c, ?_⟩
  rw [hf]
  exact ⟨hspec.imp_left fun h => ⟨h.1, h.2.1⟩, hend.room.trans (hstart'.trans hstart.symm),
    hend.loads, by omega, ⟨hc, hsize⟩, fun h => FastRegs.finish_rewind hlast hend h⟩

end Call

end ZlibNg
