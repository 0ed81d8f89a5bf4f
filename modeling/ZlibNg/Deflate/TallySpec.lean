import ZlibNg.Deflate.MatchSpec
import ZlibNg.Deflate.Slide
import ZlibNg.Deflate.Tally

/-! One turn of the loops of `deflate_huff` and `deflate_rle`: the symbol stands for the next bytes of
the window, and `fill_window` puts the input behind them. -/
namespace ZlibNg

section Rle
variable {mem : Int → UInt8} {a : UInt8} {p q : Int} {n len : Nat}

/-- One byte `n` times. -/
def Repeats (mem : Int → UInt8) (a : UInt8) (q : Int) (n : Nat) : Prop := ∀ i < n, mem (q + i) = a

theorem Repeats.add (h : Repeats mem a q n) {m : Nat} (h' : Repeats mem a (q + n) m) :
    Repeats mem a q (n + m) := by
  intro i hi
  rcases Nat.lt_or_ge i n with hlt | hge
  · exact h i hlt
  · obtain ⟨k, rfl⟩ := Nat.exists_eq_add_of_le hge
    have hk := h' k (by omega)
    rwa [add_assoc, ← Nat.cast_add] at hk

/-- A byte that is repeated is the same as the bytes before it, were these all that byte. -/
def spread (mem : Int → UInt8) (a : UInt8) (q : Int) (i : Int) : UInt8 :=
  if 0 ≤ i then mem (q + i) else a

theorem Repeats.of_spread (h : SameBytes (spread mem a q) (-8) 0 n) (hn : n ≤ 8) :
    Repeats mem a q n := by
  intro i hi
  have hsame := h i hi
  unfold spread at hsame
  rw [if_neg (by omega), if_pos (by omega)] at hsame
  rw [hsame, zero_add]

theorem memread8_spread : memread8 (spread mem a q) 0 = memread8 mem q := by
  unfold memread8
  refine congrArg leNat (List.ext_getElem? fun i => ?_)
  by_cases hi : i < 8
  · rw [getElem?_bytesAt _ _ hi, getElem?_bytesAt _ _ hi, spread, if_pos (by omega), zero_add]
  · rw [List.getElem?_eq_none (by rw [length_bytesAt]; omega),
      List.getElem?_eq_none (by rw [length_bytesAt]; omega)]

theorem repeatPair_eq (hp : mem p = a) (hp' : mem (p + 1) = a) :
    repeatPair (leNat (bytesAt mem p 2)) = memread8 (spread mem a q) (-8) := by
  have hpair : leNat (bytesAt mem p 2) = a.toNat + 256 * a.toNat := by
    simp only [bytesAt, hp, hp', leNat_cons, leNat_nil, Nat.mul_zero, Nat.add_zero]
  have hword : memread8 (spread mem a q) (-8) = leNat (List.replicate 8 a) := by
    simp [memread8, bytesAt, spread, List.replicate]
  have ha := a.toNat_lt
  rw [hword, hpair, repeatPair]
  rw [← Nat.shiftLeft_add_eq_or_of_lt (show a.toNat + 256 * a.toNat < 2 ^ 16 by omega),
    ← Nat.shiftLeft_add_eq_or_of_lt (by rw [Nat.shiftLeft_eq]; omega)]
  simp only [Nat.shiftLeft_eq, List.replicate, leNat_cons, leNat_nil]
  omega

/-- The first byte of a word that differs. -/
theorem Repeats.firstDiff (hp : mem p = a) (hp' : mem (p + 1) = a) :
    Repeats mem a q
      (firstDiffByte64 (repeatPair (leNat (bytesAt mem p 2)) ^^^ memread8 mem q)) := by
  have hle := firstDiffByte64_le (repeatPair (leNat (bytesAt mem p 2)) ^^^ memread8 mem q)
  have hdiff := SameBytes.firstDiff (spread mem a q) (-8) 0
  rw [← repeatPair_eq hp hp', memread8_spread, min_eq_left hle] at hdiff
  exact .of_spread hdiff hle

theorem Repeats.word (hp : mem p = a) (hp' : mem (p + 1) = a)
    (heq : ¬ repeatPair (leNat (bytesAt mem p 2)) ^^^ memread8 mem q ≠ 0) : Repeats mem a q 8 := by
  rw [not_not, Nat.xor_eq_zero_iff, repeatPair_eq hp hp', ← @memread8_spread mem a q] at heq
  exact .of_spread (SameBytes.of_eq heq) le_rfl

theorem compare256RleBytes_spec (hp : mem p = a) (n len : Nat) (hn : len + 8 * n = 256)
    (h : Repeats mem a q len) : Repeats mem a q (compare256RleBytes mem p q n len) := by
  induction n generalizing len with
  | zero =>
    obtain rfl : len = 256 := by omega
    exact h
  | succ n ih =>
    have hcast (i : Nat) : q + (len + i : Nat) = q + len + i := by push_cast; ring
    rw [compare256RleBytes]
    split
    · next i hfind =>
      refine h.add fun j hj => ?_
      have hj' := (List.find?_range_eq_some.mp hfind).2.2 j hj
      rw [hcast, hp] at hj'
      have hsame : a = mem (q + len + j) := by simpa using hj'
      exact hsame.symm
    · next hfind =>
      rw [List.find?_eq_none] at hfind
      refine ih (len + 8) (by omega) (h.add fun j hj => ?_)
      have hj' := hfind j (List.mem_range.mpr hj)
      rw [hcast, hp] at hj'
      have hsame : a = mem (q + len + j) := by simpa using hj'
      exact hsame.symm

theorem compare256RleWords_spec (hp : mem p = a) (hp' : mem (p + 1) = a) (n len : Nat)
    (hn : len + 8 * n = 256) (h : Repeats mem a q len) :
    Repeats mem a q (compare256RleWords mem p q n len) := by
  induction n generalizing len with
  | zero =>
    obtain rfl : len = 256 := by omega
    exact h
  | succ n ih =>
    rw [compare256RleWords]
    split
    · exact h.add (.firstDiff hp hp')
    · next heq => exact ih (len + 8) (by omega) (h.add (.word hp hp' heq))

/-- Both forms of `compare256_rle` count repetitions of the byte, which is there twice. -/
theorem Compare256.runRle_spec (cmp : Compare256) (hp : mem p = a) (hp' : mem (p + 1) = a) (q : Int) :
    Repeats mem a q (cmp.runRle mem p q) := by
  have h0 : Repeats mem a q 0 := fun i hi => absurd hi (Nat.not_lt_zero i)
  cases cmp with
  | bytes => exact compare256RleBytes_spec hp 32 0 rfl h0
  | words => exact compare256RleWords_spec hp hp' 32 0 rfl h0

theorem compare256RleBytes_le (mem : Int → UInt8) (p q : Int) (n len : Nat) (hn : len + 8 * n = 256) :
    compare256RleBytes mem p q n len ≤ 256 := by
  induction n generalizing len with
  | zero => exact le_rfl
  | succ n ih =>
    rw [compare256RleBytes]
    split
    · next i hfind =>
      have hi := List.mem_range.mp (List.mem_of_find?_eq_some hfind)
      omega
    · exact ih (len + 8) (by omega)

theorem compare256RleWords_le (mem : Int → UInt8) (p q : Int) (n len : Nat) (hn : len + 8 * n = 256) :
    compare256RleWords mem p q n len ≤ 256 := by
  induction n generalizing len with
  | zero => exact le_rfl
  | succ n ih =>
    rw [compare256RleWords]
    split
    · have hle := firstDiffByte64_le (repeatPair (leNat (bytesAt mem p 2)) ^^^ memread8 mem (q + len))
      omega
    · exact ih (len + 8) (by omega)

theorem Compare256.runRle_le (cmp : Compare256) (mem : Int → UInt8) (p q : Int) :
    cmp.runRle mem p q ≤ 256 := by
  cases cmp with
  | bytes => exact compare256RleBytes_le mem p q 32 0 rfl
  | words => exact compare256RleWords_le mem p q 32 0 rfl

end Rle

/-- A symbol that stands for the next bytes of the window. -/
structure Fitting (win : DeflateState) (x : BufferedSym) : Prop where
  size : x.size ≤ win.lookahead
  far : x.dist ≤ win.strstart
  literal : x.dist = 0 → x.lc = (win.window win.strstart).toNat
  copy : x.dist ≠ 0 → ∀ i < x.size, win.window (win.strstart + i) = win.window (win.strstart + i - x.dist)

theorem Fitting.lit {win : DeflateState} (h : 0 < win.lookahead) :
    Fitting win (.literal (win.window win.strstart)) :=
  ⟨h, Nat.zero_le _, fun _ => rfl, fun hne => absurd rfl hne⟩

/-- What the loop of a strategy relies on. Only literals come as soon as there is a byte; a match asks
for bytes enough to end within the window. -/
structure Tallier.Sound (t : Tallier) : Prop where
  pos : 0 < t.need
  le : t.need ≤ minLookahead
  fitting : ∀ win : DeflateState, 0 < win.lookahead → Fitting win (t.turn win)
  short : (∀ win, (t.turn win).dist = 0) ∨ t.need = stdMaxMatch + 1

theorem deflateHuff_sound : deflateHuff.Sound :=
  ⟨Nat.one_pos, by decide, fun _ h => .lit h, .inl fun _ => rfl⟩

theorem BufferedSym.size_le (x : BufferedSym) : x.size ≤ stdMaxMatch := by
  have h258 : stdMaxMatch = 258 := rfl
  have h3 : stdMinMatch = 3 := rfl
  have hlc := x.lc_lt
  unfold BufferedSym.size
  split <;> omega

theorem BufferedSym.size_pos (x : BufferedSym) : 0 < x.size := by
  have h3 : stdMinMatch = 3 := rfl
  unfold BufferedSym.size
  split <;> omega

/-- A run is as long as the comparison says, or as the data are. -/
theorem deflateRle_sound (cmp : Compare256) : (deflateRle cmp).Sound := by
  have h3 : stdMinMatch = 3 := rfl
  refine ⟨Nat.succ_pos _, show stdMaxMatch + 1 ≤ minLookahead by decide, fun win hpos => ?_, .inr rfl⟩
  unfold deflateRle
  dsimp only
  by_cases hrun : stdMinMatch ≤ win.lookahead ∧ 0 < win.strstart ∧
      win.window ((win.strstart : Int) - 1).toNat = win.window ((win.strstart : Int) - 1 + 1).toNat ∧
        win.window ((win.strstart : Int) - 1 + 1).toNat = win.window ((win.strstart : Int) - 1 + 2).toNat
  · rw [if_pos hrun]
    obtain ⟨hlook, hstart, hfirst, hsecond⟩ := hrun
    obtain ⟨k, hk⟩ := Nat.exists_eq_succ_of_ne_zero hstart.ne'
    have hscan : (win.strstart : Int) - 1 = k := by omega
    rw [hscan] at hfirst hsecond ⊢
    have hcount := cmp.runRle_le (fun i : Int => win.window i.toNat) k (k + 3)
    have hbytes := @Compare256.runRle_spec (fun i : Int => win.window i.toNat) _ k cmp rfl
      hfirst.symm (k + 3)
    generalize cmp.runRle (fun i : Int => win.window i.toNat) k (k + 3) = m at *
    split
    · next hlen =>
      have hsize : (BufferedSym.run (min (m + 2) win.lookahead)).size = min (m + 2) win.lookahead := by
        change (min (m + 2) win.lookahead - stdMinMatch) % 256 + stdMinMatch = _
        rw [Nat.mod_eq_of_lt (by omega)]
        omega
      have hall : ∀ i < m + 3, win.window (k + i) = win.window k := by
        intro i hi
        obtain hi2 | rfl | rfl | rfl : 3 ≤ i ∨ i = 2 ∨ i = 1 ∨ i = 0 := by omega
        · have hi' := hbytes (i - 3) (by omega)
          have hat : ((k : Int) + 3 + (i - 3 : Nat)).toNat = k + i := by omega
          change win.window ((k : Int) + 3 + (i - 3 : Nat)).toNat = win.window k at hi'
          rwa [hat] at hi'
        · exact hsecond.symm.trans hfirst.symm
        · exact hfirst.symm
        · rfl
      refine ⟨by omega, hstart, fun h => (by cases h), fun _ i hi => ?_⟩
      rw [hsize] at hi
      have hnew := hall (i + 1) (by omega)
      have hold := hall i (by omega)
      rw [hk]
      change win.window (k + 1 + i) = win.window (k + 1 + i - 1)
      rw [show k + 1 + i = k + (i + 1) by omega, hnew, ← hold]
      rfl
    · exact .lit hpos
  · rw [if_neg hrun]
    exact .lit hpos

theorem Tallier.of_sound {cmp : Compare256} {strategy : Nat} {t : Tallier}
    (h : Tallier.of cmp strategy = some t) : t.Sound := by
  unfold Tallier.of at h
  split at h
  · obtain rfl := Option.some.inj h
    exact deflateHuff_sound
  · split at h
    · obtain rfl := Option.some.inj h
      exact deflateRle_sound cmp
    · cases h

namespace DeflateState
variable {s s' : DeflateState} {x : BufferedSym} {input : List UInt8}

/-- The bytes of the window that are tallied. -/
def front (s : DeflateState) : List UInt8 := readBytes s.window 0 s.strstart

/-- The bytes of the window that are not. -/
def ahead (s : DeflateState) : List UInt8 := readBytes s.window s.strstart s.lookahead

/-- The byte to copy, in a history that begins with the window. -/
theorem getD_window {window : Nat → UInt8} {pos : Nat} {hist : List UInt8}
    (h : (readBytes window 0 pos).reverse <+: hist) {i : Nat} (hi : i < pos) :
    hist.getD i 0 = window (pos - 1 - i) := by
  obtain ⟨t, rfl⟩ := h
  have hlen : (readBytes window 0 pos).reverse.length = pos := by
    rw [List.length_reverse, length_readBytes]
  rw [List.getD_append _ _ _ _ (by omega), List.getD_eq_getElem _ _ (by omega), List.getElem_reverse]
  simp [readBytes]

/-- A copy writes the bytes that the window has. -/
theorem copyMatch_window {dist n : Nat} (hpos : 0 < dist) {window : Nat → UInt8} {pos : Nat}
    (hfar : dist ≤ pos) (hsame : ∀ i < n, window (pos + i) = window (pos + i - dist))
    {hist : List UInt8} (h : (readBytes window 0 pos).reverse <+: hist) :
    copyMatch dist n hist = (readBytes window pos n).reverse ++ hist := by
  induction n generalizing pos hist with
  | zero => rfl
  | succ n ih =>
    have hget : hist.getD (dist - 1) 0 = window pos := by
      have hold := hsame 0 (Nat.succ_pos n)
      rw [getD_window h (by omega), show pos - 1 - (dist - 1) = pos + 0 - dist by omega]
      exact hold.symm
    have hone : readBytes window pos 1 = [window pos] := rfl
    have hnext : (readBytes window 0 (pos + 1)).reverse <+: window pos :: hist := by
      rw [readBytes_add, List.reverse_append, Nat.zero_add, hone]
      exact (List.prefix_append_right_inj [window pos]).mpr h
    rw [copyMatch, hget, ih (by omega) (fun i hi => ?_) hnext, Nat.add_comm n 1, readBytes_add, hone]
    · simp
    · have hi' := hsame (i + 1) (by omega)
      rwa [show pos + (i + 1) = pos + 1 + i by omega] at hi'

/-- A symbol that fits writes the next bytes of the window. -/
theorem expand_fitting (hx : Fitting s x) {hist : List UInt8} (h : s.front.reverse <+: hist) :
    x.expand hist = (readBytes s.window s.strstart x.size).reverse ++ hist ∧
      x.dist ≤ hist.length := by
  constructor
  · unfold BufferedSym.expand BufferedSym.size
    by_cases h0 : x.dist = 0
    · rw [if_pos h0, if_pos h0, hx.literal h0]
      simp [readBytes]
    · rw [if_neg h0, if_neg h0]
      have hcopy := hx.copy h0
      rw [BufferedSym.size, if_neg h0] at hcopy
      exact copyMatch_window (Nat.pos_of_ne_zero h0) hx.far hcopy h
  · obtain ⟨t, rfl⟩ := h
    have hfar := hx.far
    rw [List.length_append, List.length_reverse, front, length_readBytes]
    omega

/-- What `fill_window` leaves of the window, with some input behind it. -/
structure Refills (s : DeflateState) (xs : List UInt8) (s' : DeflateState) : Prop where
  shape : s'.Shape
  room : s'.strstart + s'.lookahead ≤ s'.fillEnd + minLookahead
  ahead : s'.ahead = s.ahead ++ xs
  front : s'.front <:+ s.front
  start : s'.strstart ≤ s.strstart ∧ s'.strstart - s'.blockStart = s.strstart - s.blockStart
  near : s'.strstart < s'.fillEnd
  wrap : s'.wrap = s.wrap

theorem Refills.trans {s₁ s₂ s₃ : DeflateState} {xs ys : List UInt8} (h : s₁.Refills xs s₂)
    (h' : s₂.Refills ys s₃) : s₁.Refills (xs ++ ys) s₃ where
  shape := h'.shape
  room := h'.room
  ahead := by rw [h'.ahead, h.ahead, List.append_assoc]
  front := h'.front.trans h.front
  start := ⟨h'.start.1.trans h.start.1, h'.start.2.trans h.start.2⟩
  near := h'.near
  wrap := h'.wrap.trans h.wrap

theorem slide_end (s : DeflateState) :
    s.slide.fillEnd = s.fillEnd - s.slideLen ∧ s.slide.wrap = s.wrap := by
  unfold slide slideLen
  dsimp only
  exact ⟨rfl, rfl⟩

theorem settle_refills (hs : s.Shape) (hle : s.strstart + s.lookahead ≤ s.fillEnd + minLookahead) :
    s.Refills [] s.settle := by
  have h262 : minLookahead = 262 := rfl
  have hsmall := hs.small
  obtain ⟨hshape, -, hroom, -⟩ := settle_spec hs (hs.room hle) (Recent.self _ _)
  by_cases hslides : s.Slides
  · obtain ⟨hend, hfill, -, hlarge, hsum⟩ := ChainState.slideLen_spec hs (hs.room hle) hslides
    obtain ⟨a1, a2, a3, a4, -, a6, -⟩ := ChainState.advanceEnd_fields s
    obtain ⟨b1, b2, b3, -, b5, -⟩ := ChainState.slide_fields s.advanceEnd
    rw [a1, a2] at b1
    rw [a3] at b2
    rw [a1, a2, a3, a4] at b3
    rw [a1, a6] at b5
    have hsettle : s.settle = s.advanceEnd.slide := if_pos hslides
    have hadvance : s.advanceEnd.fillEnd = s.fillEnd + s.wSize ∧ s.advanceEnd.wrap = s.wrap := by
      rw [advanceEnd, if_pos hend]
      exact ⟨rfl, rfl⟩
    obtain ⟨hfillEnd, hwrap⟩ := slide_end s.advanceEnd
    rw [hadvance.1, a1] at hfillEnd
    rw [hadvance.2] at hwrap
    rw [hsettle] at hshape hroom ⊢
    refine ⟨hshape, hroom, ?_, ?_, ⟨by omega, by omega⟩, by omega, hwrap⟩
    · rw [ahead, b1, b2, b3, List.append_nil, readBytes_moved (by omega),
        show s.slideLen + (s.strstart - s.slideLen) = s.strstart by omega, ahead]
    · rw [front, b1, b3, readBytes_moved (by omega)]
      have hdrop := @readBytes_drop s.window 0 s.strstart s.slideLen
      rw [Nat.zero_add] at hdrop
      rw [Nat.add_zero, ← hdrop]
      exact List.drop_suffix _ _
  · have hsettle : s.settle = s.advanceEnd := if_neg hslides
    rw [hsettle] at hshape hroom ⊢
    by_cases hend : s.fillEnd ≤ s.strstart
    · rw [advanceEnd, if_pos hend] at hshape hroom ⊢
      refine ⟨hshape, hroom, (List.append_nil _).symm, List.suffix_rfl, ⟨le_rfl, rfl⟩, ?_, rfl⟩
      dsimp only
      omega
    · rw [advanceEnd, if_neg hend] at hshape hroom ⊢
      exact ⟨hshape, hroom, (List.append_nil _).symm, List.suffix_rfl, ⟨le_rfl, rfl⟩, by omega, rfl⟩

/-- A round of `fill_window`; where there is input and too little lookahead, it reads some. -/
theorem fillRound_refills (hs : s.Shape)
    (hle : s.strstart + s.lookahead ≤ s.fillEnd + minLookahead) (input : List UInt8) :
    ∃ n, s.Refills (input.take n) (s.fillRound input).1 ∧ (s.fillRound input).2 = input.drop n ∧
      ((s.fillRound input).1.lookahead < minLookahead → n ≠ 0) := by
  have h := settle_refills hs hle
  obtain ⟨hshape, -, hroom, -⟩ := fillRound_spec hs (hs.room hle) (Recent.self _ _) input
  have hlook : s.settle.lookahead = s.lookahead := by
    have hlen := congrArg List.length h.ahead
    simpa [ahead] using hlen
  have hmore : s.settle.more = s.settle.fillEnd + minLookahead - (s.settle.lookahead + s.settle.strstart) := by
    have hfits := h.shape.fits
    have hlimit := h.shape.limit
    have hroom' := h.room
    unfold more sub32
    omega
  have hnear := h.near
  unfold fillRound at hshape hroom ⊢
  dsimp only at hshape hroom ⊢
  generalize s.settle = t at *
  refine ⟨t.more, ⟨hshape, hroom, ?_, ?_, h.start, h.near, h.wrap⟩, rfl, fun hshort => by omega⟩
  · have hold : t.ahead = s.ahead := by rw [h.ahead, List.append_nil]
    have hlen : (input.take t.more).length = min input.length t.more := by
      rw [List.length_take, Nat.min_comm]
    have hread := @readBytes_behind t.window t.strstart (t.strstart + t.lookahead)
      (input.take t.more) (Nat.le_add_right _ _)
    rw [Nat.add_sub_cancel_left, hlen] at hread
    rw [← hold]
    exact hread
  · have hsame : readBytes (writeBytes t.window (t.strstart + t.lookahead) (input.take t.more)) 0
        t.strstart = readBytes t.window 0 t.strstart := by
      refine List.map_congr_left fun i hi => writeBytes_not_mem (.inl ?_)
      have hi' := (List.mem_range'_1.mp hi).2
      omega
    rw [front]
    dsimp only
    rw [hsame]
    exact h.front

/-- `fill_window` ends, with enough lookahead or without input. -/
theorem fillWindow_refills {fuel : Nat} (hs : s.Shape)
    (hle : s.strstart + s.lookahead ≤ s.fillEnd + minLookahead) (hfuel : input.length < fuel) :
    ∃ n s', fillWindow fuel s input = some (s', input.drop n) ∧ s.Refills (input.take n) s' ∧
      n ≤ input.length ∧ (minLookahead ≤ s'.lookahead ∨ input.drop n = []) := by
  induction fuel generalizing s input with
  | zero => omega
  | succ fuel ih =>
    obtain ⟨n, hround, hrest, hsome⟩ := fillRound_refills hs hle input
    rw [fillWindow]
    split
    · next hagain =>
      obtain ⟨hshort, hne⟩ := hagain
      have hpos := hsome hshort
      rw [hrest] at hne ⊢
      have hlt : n < input.length := by
        by_contra hcon
        exact hne (List.drop_eq_nil_of_le (Nat.le_of_not_lt hcon))
      obtain ⟨m, s', hfill, hmore, hm, hend⟩ := ih hround.shape hround.room
        (show (input.drop n).length < fuel by rw [List.length_drop]; omega)
      rw [List.length_drop] at hm
      rw [List.drop_drop] at hfill hend
      refine ⟨n + m, s', hfill, ?_, by omega, hend⟩
      rw [List.take_add]
      exact hround.trans hmore
    · next hstop =>
      have hshort : n ≤ input.length ∨ input.length ≤ n := Nat.le_total _ _
      rw [not_and_or, not_lt, not_not] at hstop
      rw [← Prod.eta (s.fillRound input), hrest]
      rw [hrest] at hstop
      rcases hshort with hn | hn
      · exact ⟨n, _, rfl, hround, hn, hstop⟩
      · refine ⟨input.length, (s.fillRound input).1, ?_, ?_, le_rfl, ?_⟩
        · rw [List.drop_length, List.drop_eq_nil_of_le hn]
        · rw [List.take_length]
          rwa [List.take_of_length_le hn] at hround
        · rw [List.drop_length]
          exact .inr rfl

end DeflateState
end ZlibNg
