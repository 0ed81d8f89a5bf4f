import ZlibNg.Deflate.StoredSpec

/-! The runs of a stream, as far as its window is concerned. -/
namespace ZlibNg

/-- The steps of a stream. Above level 0 the compression functions read rounds of input while the
lookahead is short, move past matched bytes, end blocks, and use up the lookahead before a flush is
complete; where a match lies does not matter to the window. -/
inductive Action
  | header
  | trailer
  | fill (input : List UInt8)
  | advance (n : Nat)
  | flushBlock
  | flushed
  | stored (flush : Flush) (input : List UInt8) (availOut biValid : Nat)
  | setDictionary (fuel : Nat) (dictionary : List UInt8)
  | params (level : Nat)
  | reset

/-- A step that leaves the level as it is. -/
def Action.Fixed : Action → Prop
  | .params _ => False
  | _ => True

namespace DeflateState

/-- A step, with the history it leaves; no step where the code takes none. -/
def act (s : DeflateState) (hist : List UInt8) : Action → Option (DeflateState × List UInt8)
  | .header => some ({ s with status := .busy }, hist)
  | .trailer => some ({ s with wrap := -|s.wrap| }, hist)
  | .fill input =>
    if s.level ≠ 0 ∧ s.status = .busy ∧ s.lookahead < minLookahead then
      let r := s.fillRound input
      some (r.1, hist ++ input.take (input.length - r.2.length))
    else none
  | .advance n =>
    if s.level ≠ 0 ∧ s.status = .busy ∧ n ≤ s.lookahead then
      some ({ s with strstart := s.strstart + n, lookahead := s.lookahead - n }, hist)
    else none
  | .flushBlock =>
    if s.level ≠ 0 ∧ s.status = .busy then some ({ s with blockStart := s.strstart }, hist) else none
  | .flushed =>
    if s.level ≠ 0 ∧ s.status = .busy ∧ s.lookahead = 0 then some (s.fullFlush, []) else none
  | .stored flush input availOut biValid =>
    if s.level = 0 ∧ s.status = .busy then
      let r := s.deflateStored flush input availOut biValid
      if flush = .fullFlush ∧ r.1 = .blockDone then some (r.2.1.fullFlush, [])
      else some (r.2.1, hist ++ input.take r.2.2)
    else none
  | .setDictionary fuel dictionary =>
    (s.setDictionary fuel dictionary).map fun r =>
      (r.2, if r.1 = .ok then hist ++ dictionary else hist)
  | .params level =>
    -- `deflate_stored` is the function of level 0 alone; a change of function flushes first
    if (s.level = 0 ↔ level = 0) ∨ (s.lookahead = 0 ∧ s.blockStart = s.strstart) then
      some ({ s with level := level }, hist)
    else none
  | .reset => some (s.reset, [])

/-- `deflate_stored` writes the last block with input that goes directly to the output. -/
def Lost (s : DeflateState) : Action → Prop
  | .stored flush input availOut biValid =>
    flush = .finish ∧ input ≠ [] ∧
      lastBlockRoom biValid ((s.strstart - s.blockStart).toNat + input.length) ≤ availOut
  | _ => False

/-- `deflateSetDictionary` takes no dictionary. -/
def Refuses (s : DeflateState) : Prop :=
  s.wrap = 2 ∨ (s.wrap = 1 ∧ s.status ≠ .init) ∨ s.lookahead ≠ 0

/-- Where bytes of a dictionary are loaded or level 0 is left, the end of the data that
`fill_window` keeps is at most one window behind `deflate_stored`, or the window is started anew. -/
def Near (s : DeflateState) : Action → Prop
  | .setDictionary _ dictionary =>
    s.Refuses ∨ dictionary = [] ∨ (s.wSize ≤ dictionary.length ∧ s.wrap = 0) ∨
      s.strstart ≤ s.fillEnd + s.wSize + minLookahead
  | .params level => s.level = 0 → level ≠ 0 → s.strstart ≤ s.fillEnd + s.wSize + minLookahead
  | _ => True

/-- The runs of a stream whose steps meet a condition, with the history since the last reset or
full flush. -/
inductive Run (P : DeflateState → Action → Prop) (start : DeflateState) :
    DeflateState → List UInt8 → Prop
  | start : Run P start start []
  | step {s s' : DeflateState} {hist hist' : List UInt8} (a : Action) (h : Run P start s hist)
      (hP : P s a) (hs : s.act hist a = some (s', hist')) : Run P start s' hist'

/-- `deflateInit2`; a window of 256 bytes is not used. -/
def init (wrap : Int) (level windowBits pendingBufSize : Nat) (window : Nat → UInt8) :
    DeflateState :=
  reset
    { status := .init
      wrap := wrap
      level := level
      wSize := 2 ^ (if windowBits = 8 then 9 else windowBits)
      windowSize := 0
      window := window
      strstart := 0
      lookahead := 0
      blockStart := 0
      fillEnd := 0
      pendingBufSize := pendingBufSize }

/-- What holds of a stream and its history between steps; past its end the window buffer is as it
was. -/
structure Tracks (s : DeflateState) (w₀ : Nat → UInt8) (hist : List UInt8) : Prop where
  bits : ∃ n, 9 ≤ n ∧ n ≤ 15 ∧ s.wSize = 2 ^ n
  size : s.windowSize = wBufSize s.wSize
  shape : s.Shape
  recent : Recent s.wSize s.data hist
  stored : s.level = 0 → s.AtRest
  room : s.level ≠ 0 → s.Room
  outside : ∀ i, s.windowSize ≤ i → s.window i = w₀ i

variable {s s' : DeflateState} {w₀ : Nat → UInt8} {hist : List UInt8}

theorem Tracks.fits (h : s.Tracks w₀ hist) : s.strstart + s.lookahead ≤ s.windowSize := by
  by_cases h0 : s.level = 0
  · rw [(h.stored h0).lookahead, Nat.add_zero]
    exact (h.stored h0).fits
  · exact (h.room h0).fits

/-- A step that keeps the shape of the window carries the rest over. -/
theorem Tracks.kept (h : s.Tracks w₀ hist) {hist' : List UInt8} (hk : Kept s s') (hs : s'.Shape)
    (hr : Recent s.wSize s'.data hist') (hstored : s.level = 0 → s'.AtRest)
    (hroom : s.level ≠ 0 → s'.Room) : s'.Tracks w₀ hist' := by
  refine ⟨?_, ?_, hs, hk.wSize.symm ▸ hr, fun h0 => hstored (hk.level ▸ h0), fun h0 =>
    hroom (hk.level ▸ h0), fun i hi => ?_⟩
  · rw [hk.wSize]
    exact h.bits
  · rw [hk.windowSize, hk.wSize]
    exact h.size
  · rw [hk.windowSize] at hi
    exact (hk.outside i hi).trans (h.outside i hi)

theorem Tracks.empty (hbits : ∃ n, 9 ≤ n ∧ n ≤ 15 ∧ s.wSize = 2 ^ n)
    (hsize : s.windowSize = wBufSize s.wSize) (hs : s.Shape) (h0 : s.strstart = 0)
    (hl : s.lookahead = 0) (hb : s.blockStart = 0)
    (hout : ∀ i, s.windowSize ≤ i → s.window i = w₀ i) : s.Tracks w₀ [] := by
  refine ⟨hbits, hsize, hs, ?_, fun _ => ⟨hl, by omega, hb.ge, by omega⟩, fun _ =>
    hs.room (by omega), hout⟩
  rw [data, h0, hl]
  exact Recent.nil

theorem Tracks.getDictionary_spec (h : s.Tracks w₀ hist) : s.getDictionary <:+ hist ∧
    s.getDictionary.length ≤ s.wSize ∧
      min hist.length (s.wSize - minLookahead) ≤ s.getDictionary.length := by
  obtain ⟨h1, h2⟩ := h.recent
  rw [getDictionary_eq, Recent.length_rtake]
  exact ⟨h1, Nat.min_le_right _ _, by omega⟩

/-- The buffer is a whole number of windows long, and two at least. -/
theorem lmInit_shape {n : Nat} (h9 : 9 ≤ n) (h15 : n ≤ 15) (hw : s.wSize = 2 ^ n) :
    s.lmInit.Shape := by
  have h262 : minLookahead = 262 := rfl
  have hsmall : 2 ^ 9 ≤ 2 ^ n := Nat.pow_le_pow_right (by decide) h9
  have hlarge : 2 ^ n ≤ 2 ^ 15 := Nat.pow_le_pow_right (by decide) h15
  have hbuf : wBufMin = 2 ^ (15 - n) * 2 ^ n := by
    rw [← Nat.pow_add, Nat.sub_add_cancel h15]
    rfl
  refine ⟨?_, ?_, ⟨max 2 (2 ^ (15 - n)), le_max_left _ _, ?_⟩, ⟨2, le_rfl, ?_⟩, ?_⟩
  · change 512 ≤ s.wSize
    omega
  · exact max_le (by omega) (by decide)
  · change max (2 * s.wSize) wBufMin = _ * s.wSize
    rw [hbuf, hw, Nat.mul_max_mul_right]
  · change 2 * s.wSize - minLookahead + minLookahead = 2 * s.wSize
    omega
  · refine le_trans ?_ (le_max_left _ _)
    change 2 * s.wSize - minLookahead + minLookahead ≤ 2 * s.wSize
    omega

theorem tracks_reset (hbits : ∃ n, 9 ≤ n ∧ n ≤ 15 ∧ s.wSize = 2 ^ n)
    (hout : ∀ i, wBufSize s.wSize ≤ i → s.window i = w₀ i) : s.reset.Tracks w₀ [] := by
  obtain ⟨n, h9, h15, hw⟩ := hbits
  exact Tracks.empty ⟨n, h9, h15, hw⟩ rfl (lmInit_shape h9 h15 hw) rfl rfl rfl hout

theorem Tracks.fullFlush (h : s.Tracks w₀ hist) (hl : s.lookahead = 0) : s.fullFlush.Tracks w₀ [] := by
  rw [DeflateState.fullFlush, if_pos hl]
  exact Tracks.empty h.bits h.size
    (h.shape.congr rfl rfl rfl) rfl hl rfl h.outside

theorem Tracks.fill (h : s.Tracks w₀ hist) (hlevel : s.level ≠ 0) (input : List UInt8) :
    (s.fillRound input).1.Tracks w₀
      (hist ++ input.take (input.length - (s.fillRound input).2.length)) := by
  obtain ⟨h1, h2, h3, xs, hxs, h4⟩ :=
    fillRound_spec h.shape (h.room hlevel) h.recent input
  have htake : input.take (input.length - (s.fillRound input).2.length) = xs := by
    generalize (s.fillRound input).2 = rest at hxs
    rw [hxs, List.length_append, Nat.add_sub_cancel, List.take_left]
  rw [htake]
  exact h.kept h2 h1 h4 (fun h0 => absurd h0 hlevel) fun _ => h1.room h3

theorem Tracks.advance (h : s.Tracks w₀ hist) (hlevel : s.level ≠ 0) {n : Nat} (hn : n ≤ s.lookahead) :
    Tracks { s with strstart := s.strstart + n, lookahead := s.lookahead - n } w₀ hist := by
  have hsame : s.strstart + n + (s.lookahead - n) = s.strstart + s.lookahead := by omega
  obtain ⟨hfit, hbehind, hahead⟩ := h.room hlevel
  refine h.kept ⟨rfl, rfl, rfl, fun _ _ => rfl⟩
    (h.shape.congr rfl rfl rfl) ?_
    (fun h0 => absurd h0 hlevel) fun _ => ⟨hsame ▸ hfit, fun hend => ?_, fun hend => ?_⟩
  · rw [data]
    dsimp only
    rw [hsame]
    exact h.recent
  · dsimp only at hend ⊢
    omega
  · dsimp only at hend ⊢
    omega

theorem Tracks.deflateStored (h : s.Tracks w₀ hist) (hlevel : s.level = 0) {flush : Flush}
    {input : List UInt8} {availOut biValid : Nat}
    (hkeeps : ¬s.Lost (.stored flush input availOut biValid)) :
    let r := s.deflateStored flush input availOut biValid
    r.2.1.Tracks w₀ (hist ++ input.take r.2.2) ∧ r.2.1.lookahead = 0 := by
  obtain ⟨h1, h2, h3⟩ := deflateStored_spec h.shape (h.stored hlevel) h.recent hkeeps
  exact ⟨h.kept h1.toKept (h1.shape h.shape) h3 (fun _ => h2) fun h0 => absurd hlevel h0,
    h2.lookahead⟩

/-- Where the dictionary goes, and the history it is appended to. -/
theorem Tracks.clearFor (h : s.Tracks w₀ hist) (hl : s.lookahead = 0) {n : Nat}
    (hnear : (s.wSize ≤ n ∧ s.wrap = 0) ∨ s.strstart ≤ s.fillEnd + s.wSize + minLookahead) :
    (s.clearFor n).Shape ∧ (s.clearFor n).Room ∧ Kept s (s.clearFor n) ∧
      ∃ hist', Recent s.wSize (s.clearFor n).data hist' ∧ (n < s.wSize → hist' = hist) := by
  unfold DeflateState.clearFor
  split
  · next hclear =>
    have hs : Shape { s with strstart := 0, blockStart := 0 } :=
      h.shape.congr rfl rfl rfl
    refine ⟨hs, hs.room ?_, ⟨rfl, rfl, rfl, fun _ _ => rfl⟩, [], ?_,
      fun hlt => absurd hclear.1 (by omega)⟩
    · dsimp only
      omega
    · rw [data]
      dsimp only
      rw [hl]
      exact Recent.nil
  · next hclear =>
    have hle := hnear.resolve_left hclear
    exact ⟨h.shape, ⟨h.fits, fun _ => by omega, fun _ => by omega⟩, .refl s, hist, h.recent,
      fun _ => rfl⟩

/-- Far behind `deflate_stored`, the end of the data moves on and the window does not slide. -/
theorem settle_behind (hs : s.Shape) (hfit : s.strstart ≤ s.windowSize)
    (hfar : s.fillEnd + s.wSize + minLookahead < s.strstart) :
    s.settle = { s with fillEnd := s.fillEnd + s.wSize } ∧
      Shape { s with fillEnd := s.fillEnd + s.wSize } := by
  obtain ⟨hsmall, hlimit, hsize, ⟨q, hq, hfill⟩, hfits⟩ := hs
  constructor
  · unfold settle advanceEnd
    rw [if_pos (by omega : s.fillEnd ≤ s.strstart)]
    exact if_neg (by dsimp only; omega)
  · refine ⟨hsmall, hlimit, hsize, ⟨q + 1, by omega, ?_⟩, ?_⟩
    · dsimp only
      rw [Nat.add_mul]
      omega
    · dsimp only
      omega

/-- A dictionary without bytes changes nothing of the data, wherever the window ends. -/
theorem Tracks.setNoDictionary (h : s.Tracks w₀ hist)
    (hfar : s.fillEnd + s.wSize + minLookahead < s.strstart) {fuel : Nat} {code : Ret}
    (hset : s.setDictionary fuel [] = some (code, s')) : s'.Tracks w₀ hist := by
  have hfit := h.fits
  have hsmall := h.shape.small
  obtain ⟨hsettle, hshape⟩ := settle_behind h.shape (by omega) hfar
  have hlevel : s.level = 0 := by
    by_contra hlevel
    have hbehind := (h.room hlevel).behind (by omega)
    omega
  have hrest := h.stored hlevel
  rw [DeflateState.setDictionary] at hset
  split at hset
  · obtain ⟨rfl, rfl⟩ := Prod.mk.inj (Option.some.inj hset)
    exact h
  · have hround : s.fillRound [] = ({ s with fillEnd := s.fillEnd + s.wSize }, []) := by
      have hsame : writeBytes s.window (s.strstart + s.lookahead) [] = s.window :=
        funext fun i => writeBytes_not_mem (by simp; omega)
      rw [fillRound, hsettle]
      simp only [List.take_nil, List.drop_nil, List.length_nil, Nat.zero_min, Nat.add_zero, hsame]
    have hkeep : s.clearFor ([] : List UInt8).length = s := if_neg fun hclear => by
      have hnone : s.wSize ≤ 0 := hclear.1
      omega
    obtain ⟨⟨s₁, rest⟩, hfill, hset⟩ := Option.bind_eq_some_iff.mp hset
    obtain ⟨s₂, hloop, hset⟩ := Option.bind_eq_some_iff.mp hset
    obtain ⟨rfl, rfl⟩ := Prod.mk.inj (Option.some.inj hset)
    rw [hkeep, List.drop_nil] at hfill
    cases fuel with
    | zero => cases hfill
    | succ fuel =>
      rw [fillWindow, hround, if_neg (fun hmore => hmore.2 rfl)] at hfill
      cases hfill
      have hnone : ¬ stdMinMatch ≤ s.lookahead := by
        rw [hrest.lookahead]
        decide
      rw [insertLoop, if_neg hnone] at hloop
      cases hloop
      refine h.kept ⟨rfl, rfl, rfl, fun _ _ => rfl⟩ (hshape.congr rfl rfl rfl) ?_
        (fun _ => ⟨rfl, ?_, ?_, ?_⟩) fun h0 => absurd hlevel h0
      · rw [data]
        exact h.recent
      · dsimp only
        omega
      · dsimp only
        omega
      · dsimp only
        omega

/-- A dictionary is appended to the history, as far as the window holds it. -/
theorem Tracks.loadDictionary (h : s.Tracks w₀ hist) {fuel : Nat} {dictionary : List UInt8}
    {code : Ret}
    (hnear : (s.wSize ≤ dictionary.length ∧ s.wrap = 0) ∨
      s.strstart ≤ s.fillEnd + s.wSize + minLookahead)
    (hset : s.setDictionary fuel dictionary = some (code, s')) :
    s'.Tracks w₀ (if code = .ok then hist ++ dictionary else hist) := by
  rw [DeflateState.setDictionary] at hset
  split at hset
  · obtain ⟨rfl, rfl⟩ := Prod.mk.inj (Option.some.inj hset)
    exact h
  · next haccept =>
    simp only [not_or, not_not] at haccept
    obtain ⟨⟨s₁, rest⟩, hfill, hset⟩ := Option.bind_eq_some_iff.mp hset
    obtain ⟨s₂, hloop, hset⟩ := Option.bind_eq_some_iff.mp hset
    obtain ⟨rfl, rfl⟩ := Prod.mk.inj (Option.some.inj hset)
    obtain ⟨a1, a2, a3, hist', a4, a5⟩ := h.clearFor haccept.2.2 hnear
    obtain ⟨b1, b2, b3, b4, xs, hxs, b5⟩ := fillWindow_spec a1 a2 (a3.wSize.symm ▸ a4) hfill
    dsimp only at b1 b2 b3 b4 hxs b5
    obtain ⟨c1, c2, c3, c4⟩ := insertLoop_spec b1 b3 b4 (b2.wSize.symm ▸ b5) hloop
    rw [List.append_assoc, ← hxs, b2.wSize, a3.wSize] at c4
    have hkept := (a3.trans b2).trans c2
    have hrecent : Recent s.wSize s₂.data (hist ++ dictionary) := by
      by_cases hlong : s.wSize ≤ dictionary.length
      · refine c4.supplant ?_ (List.drop_suffix _ _)
        rw [List.length_drop]
        omega
      · rw [a5 (by omega), Nat.sub_eq_zero_of_le (by omega), List.drop_zero] at c4
        exact c4
    rw [if_pos rfl]
    have hs₃ : Shape { s₂ with
        strstart := s₂.strstart + s₂.lookahead
        blockStart := s₂.strstart + s₂.lookahead
        lookahead := 0 } := c1.congr rfl rfl rfl
    refine h.kept (hkept.trans ⟨rfl, rfl, rfl, fun _ _ => rfl⟩) hs₃ hrecent (fun _ => ?_)
      fun _ => hs₃.room c3
    exact ⟨rfl, c3.trans c1.fits, by dsimp only; omega, by dsimp only; omega⟩

theorem Tracks.setDictionary (h : s.Tracks w₀ hist) {fuel : Nat} {dictionary : List UInt8}
    {code : Ret} (hnear : s.Near (.setDictionary fuel dictionary))
    (hset : s.setDictionary fuel dictionary = some (code, s')) :
    s'.Tracks w₀ (if code = .ok then hist ++ dictionary else hist) := by
  by_cases hclose : (s.wSize ≤ dictionary.length ∧ s.wrap = 0) ∨
      s.strstart ≤ s.fillEnd + s.wSize + minLookahead
  · exact h.loadDictionary hclose hset
  · rcases hnear with hrefuse | rfl | hnear
    · unfold Refuses at hrefuse
      rw [DeflateState.setDictionary, if_pos hrefuse] at hset
      obtain ⟨rfl, rfl⟩ := Prod.mk.inj (Option.some.inj hset)
      exact h
    · rw [List.append_nil, ite_self]
      exact h.setNoDictionary (Nat.lt_of_not_le fun hle => hclose (.inr hle)) hset
    · exact absurd hnear hclose

theorem Tracks.params (h : s.Tracks w₀ hist) {level : Nat} (hnear : s.Near (.params level))
    (hflushed : (s.level = 0 ↔ level = 0) ∨ (s.lookahead = 0 ∧ s.blockStart = s.strstart)) :
    Tracks { s with level := level } w₀ hist := by
  have hfits := h.fits
  refine ⟨h.bits, h.size, h.shape.congr rfl rfl rfl, h.recent, fun h0 => ?_, fun h0 => ?_, h.outside⟩
  · rcases hflushed with hsame | ⟨hl, hb⟩
    · exact ⟨(h.stored (hsame.mpr h0)).lookahead, (h.stored (hsame.mpr h0)).fits,
        (h.stored (hsame.mpr h0)).start_nonneg, (h.stored (hsame.mpr h0)).start_le⟩
    · exact ⟨hl, by dsimp only; omega, by dsimp only; omega, by dsimp only; omega⟩
  · by_cases hlevel : s.level = 0
    · -- level 0 is left
      have hl := (h.stored hlevel).lookahead
      have hle := hnear hlevel h0
      exact ⟨hfits, fun _ => by dsimp only; omega, fun hlt => by dsimp only at hlt ⊢; omega⟩
    · exact ⟨(h.room hlevel).fits, (h.room hlevel).behind, (h.room hlevel).ahead⟩

/-- Every step that loses no input keeps to the history. -/
theorem Tracks.act {a : Action} {hist' : List UInt8} (h : s.Tracks w₀ hist) (hnear : s.Near a)
    (hlost : ¬s.Lost a) (hact : s.act hist a = some (s', hist')) : s'.Tracks w₀ hist' := by
  cases a with
  | header | trailer =>
    obtain ⟨rfl, rfl⟩ := Prod.mk.inj (Option.some.inj hact)
    exact h.kept ⟨rfl, rfl, rfl, fun _ _ => rfl⟩ (h.shape.congr rfl rfl rfl) h.recent
      (fun h0 => ⟨(h.stored h0).lookahead, (h.stored h0).fits, (h.stored h0).start_nonneg,
        (h.stored h0).start_le⟩)
      fun h0 => ⟨(h.room h0).fits, (h.room h0).behind, (h.room h0).ahead⟩
  | fill input =>
    obtain ⟨hcond, hact⟩ := Option.ite_none_right_eq_some.mp hact
    obtain ⟨rfl, rfl⟩ := Prod.mk.inj (Option.some.inj hact)
    exact h.fill hcond.1 input
  | advance n =>
    obtain ⟨hcond, hact⟩ := Option.ite_none_right_eq_some.mp hact
    obtain ⟨rfl, rfl⟩ := Prod.mk.inj (Option.some.inj hact)
    exact h.advance hcond.1 hcond.2.2
  | flushBlock =>
    obtain ⟨hcond, hact⟩ := Option.ite_none_right_eq_some.mp hact
    obtain ⟨rfl, rfl⟩ := Prod.mk.inj (Option.some.inj hact)
    exact h.kept ⟨rfl, rfl, rfl, fun _ _ => rfl⟩ (h.shape.congr rfl rfl rfl) h.recent
      (fun h0 => absurd h0 hcond.1)
      fun h0 => ⟨(h.room h0).fits, (h.room h0).behind, (h.room h0).ahead⟩
  | flushed =>
    obtain ⟨hcond, hact⟩ := Option.ite_none_right_eq_some.mp hact
    obtain ⟨rfl, rfl⟩ := Prod.mk.inj (Option.some.inj hact)
    exact h.fullFlush hcond.2.2
  | stored flush input availOut biValid =>
    obtain ⟨hcond, hact⟩ := Option.ite_none_right_eq_some.mp hact
    obtain ⟨h1, h2⟩ := h.deflateStored hcond.1 hlost
    split at hact
    · obtain ⟨rfl, rfl⟩ := Prod.mk.inj (Option.some.inj hact)
      exact h1.fullFlush h2
    · obtain ⟨rfl, rfl⟩ := Prod.mk.inj (Option.some.inj hact)
      exact h1
  | setDictionary fuel dictionary =>
    obtain ⟨⟨code, s₁⟩, hset, hact⟩ := Option.map_eq_some_iff.mp hact
    obtain ⟨rfl, rfl⟩ := Prod.mk.inj hact
    exact h.setDictionary hnear hset
  | params level =>
    obtain ⟨hcond, hact⟩ := Option.ite_none_right_eq_some.mp hact
    obtain ⟨rfl, rfl⟩ := Prod.mk.inj (Option.some.inj hact)
    exact h.params hnear hcond
  | reset =>
    obtain ⟨rfl, rfl⟩ := Prod.mk.inj (Option.some.inj hact)
    exact tracks_reset h.bits (h.size ▸ h.outside)

theorem tracks_init {wrap : Int} {level windowBits pendingBufSize : Nat} {window : Nat → UInt8}
    (h8 : 8 ≤ windowBits) (h15 : windowBits ≤ 15) :
    (init wrap level windowBits pendingBufSize window).Tracks window [] := by
  refine tracks_reset ⟨if windowBits = 8 then 9 else windowBits, ?_, ?_, rfl⟩ fun _ _ => rfl
  · split <;> omega
  · split <;> omega

end DeflateState

end ZlibNg
