import ZlibNg.Deflate.Slide

/-! Every slide of a stream at a level from 1 to 9 keeps the history. -/
namespace ZlibNg
namespace DeflateState

/-- `fill_window` on some input starts a round with the window as in `t`. -/
inductive Rounds : DeflateState → List UInt8 → DeflateState → Prop
  | now {s : DeflateState} {input : List UInt8} : Rounds s input s
  | later {s t : DeflateState} {input : List UInt8}
      (hshort : (s.fillRound input).1.lookahead < minLookahead) (hrest : (s.fillRound input).2 ≠ [])
      (h : Rounds (s.fillRound input).1 (s.fillRound input).2 t) : Rounds s input t

/-- The loop of `deflateSetDictionary` starts a round with the window as in `t`. -/
inductive InsertRounds : DeflateState → List UInt8 → DeflateState → Prop
  | now {s t : DeflateState} {rest : List UInt8} (hlong : stdMinMatch ≤ s.lookahead)
      (h : Rounds s.skip rest t) : InsertRounds s rest t
  | later {s t : DeflateState} {rest : List UInt8} {fuel : Nat} {r : DeflateState × List UInt8}
      (hlong : stdMinMatch ≤ s.lookahead) (hfill : fillWindow fuel s.skip rest = some r)
      (h : InsertRounds r.1 r.2 t) : InsertRounds s rest t

/-- A step starts a round of `fill_window` with the window as in `t`. -/
def RoundIn (s : DeflateState) : Action → DeflateState → Prop
  | .fill input, t =>
    s.level ≠ 0 ∧ s.status = .busy ∧ s.lookahead < minLookahead ∧ Rounds s input t
  | .setDictionary fuel dictionary, t =>
    ¬(s.wrap = 2 ∨ (s.wrap = 1 ∧ s.status ≠ .init) ∨ s.lookahead ≠ 0) ∧
      (Rounds (s.clearFor dictionary.length) (dictionary.drop (dictionary.length - s.wSize)) t ∨
        ∃ r, fillWindow fuel (s.clearFor dictionary.length)
            (dictionary.drop (dictionary.length - s.wSize)) = some r ∧ InsertRounds r.1 r.2 t)
  | _, _ => False

variable {s s' t : DeflateState} {w₀ : Nat → UInt8} {hist hist' input : List UInt8}

theorem Rounds.room (h : Rounds s input t) (hs : s.Shape) (hroom : s.Room) :
    t.Shape ∧ t.Room ∧ t.wSize = s.wSize := by
  induction h with
  | now => exact ⟨hs, hroom, rfl⟩
  | @later s t input _ _ _ ih =>
    obtain ⟨h1, h2, h3, -⟩ := fillRound_spec hs hroom (Recent.self _ _) input
    obtain ⟨g1, g2, g3⟩ := ih h1 (h1.room h3)
    exact ⟨g1, g2, g3.trans h2.wSize⟩

theorem InsertRounds.room (h : InsertRounds s input t) (hs : s.Shape)
    (hle : s.strstart + s.lookahead ≤ s.fillEnd + minLookahead) :
    t.Shape ∧ t.Room ∧ t.wSize = s.wSize := by
  induction h with
  | now hlong h =>
    obtain ⟨h1, h2, -⟩ := skip_spec hs hle hlong
    obtain ⟨g1, g2, g3⟩ := h.room h1 h2
    exact ⟨g1, g2, g3.trans rfl⟩
  | later hlong hfill _ ih =>
    obtain ⟨h1, h2, -⟩ := skip_spec hs hle hlong
    obtain ⟨g1, g2, g3, -⟩ := fillWindow_spec h1 h2 (Recent.self _ _) hfill
    obtain ⟨f1, f2, f3⟩ := ih g1 g3
    exact ⟨f1, f2, f3.trans (g2.wSize.trans rfl)⟩

/-- Above level 0 the window is never left behind. -/
theorem Room.close (h : s.Room) : s.strstart ≤ s.fillEnd + s.wSize + minLookahead := by
  by_cases hend : s.fillEnd ≤ s.strstart
  · have := h.behind hend
    omega
  · omega

theorem Room.near (h : s.Room) {a : Action} (ha : a.Fixed) : s.Near a := by
  cases a with
  | setDictionary fuel dictionary => exact .inr (.inr (.inr h.close))
  | params level => exact ha.elim
  | _ => trivial

theorem Tracks.roundIn (h : s.Tracks w₀ hist) (hlevel : s.level ≠ 0) {a : Action} (ha : a.Fixed)
    (hround : s.RoundIn a t) : t.Shape ∧ t.Room ∧ t.wSize = s.wSize := by
  cases a with
  | fill input =>
    obtain ⟨-, -, -, hrounds⟩ := hround
    exact hrounds.room h.shape (h.room hlevel)
  | setDictionary fuel dictionary =>
    obtain ⟨haccept, hrounds⟩ := hround
    simp only [not_or, not_not] at haccept
    obtain ⟨h1, h2, h3, -⟩ := h.clearFor haccept.2.2 (.inr (h.room hlevel).close)
    rcases hrounds with hrounds | ⟨r, hfill, hrounds⟩
    · obtain ⟨g1, g2, g3⟩ := hrounds.room h1 h2
      exact ⟨g1, g2, g3.trans h3.wSize⟩
    · obtain ⟨g1, g2, g3, -⟩ := fillWindow_spec h1 h2 (Recent.self _ _) hfill
      obtain ⟨f1, f2, f3⟩ := hrounds.room g1 g3
      exact ⟨f1, f2, f3.trans (g2.wSize.trans h3.wSize)⟩
  | _ => exact hround.elim

theorem settle_level (s : DeflateState) : s.settle.level = s.level := by
  have hadvance := (ChainState.advanceEnd_fields s).2.2.2.2.2.2
  have hslide := (ChainState.slide_fields s.advanceEnd).2.2.2.2.2
  unfold settle
  dsimp only
  split
  · exact hslide.trans hadvance
  · exact hadvance

/-- Nothing but `deflateParams` changes the level. -/
theorem fillRound_level (s : DeflateState) (input : List UInt8) :
    (s.fillRound input).1.level = s.level := by
  have h := settle_level s
  unfold fillRound
  generalize s.settle = t at h ⊢
  exact h

theorem fillWindow_level {fuel : Nat} {r : DeflateState × List UInt8}
    (h : fillWindow fuel s input = some r) : r.1.level = s.level := by
  induction fuel generalizing s input with
  | zero => exact absurd h (by simp [fillWindow])
  | succ fuel ih =>
    rw [fillWindow] at h
    split at h
    · exact (ih h).trans (fillRound_level s input)
    · obtain rfl := Option.some.inj h
      exact fillRound_level s input

theorem insertLoop_level {fuel : Nat} (h : insertLoop fuel s input = some s') :
    s'.level = s.level := by
  induction fuel generalizing s input with
  | zero => exact absurd h (by simp [insertLoop])
  | succ fuel ih =>
    rw [insertLoop] at h
    split at h
    · obtain ⟨r, hfill, hloop⟩ := Option.bind_eq_some_iff.mp h
      have hskip : s.skip.level = s.level := by
        unfold skip
        dsimp only
      exact ((ih hloop).trans (fillWindow_level hfill)).trans hskip
    · obtain rfl := Option.some.inj h
      rfl

theorem setDictionary_level {fuel : Nat} {dictionary : List UInt8} {code : Ret}
    (h : s.setDictionary fuel dictionary = some (code, s')) : s'.level = s.level := by
  rw [DeflateState.setDictionary] at h
  split at h
  · obtain ⟨-, rfl⟩ := Prod.mk.inj (Option.some.inj h)
    rfl
  · obtain ⟨⟨s₁, rest⟩, hfill, h⟩ := Option.bind_eq_some_iff.mp h
    obtain ⟨s₂, hloop, h⟩ := Option.bind_eq_some_iff.mp h
    obtain ⟨-, rfl⟩ := Prod.mk.inj (Option.some.inj h)
    have hclear : (s.clearFor dictionary.length).level = s.level := by
      unfold DeflateState.clearFor
      split <;> rfl
    exact ((insertLoop_level hloop).trans (fillWindow_level hfill)).trans hclear

theorem act_level {a : Action} (ha : a.Fixed) (hlevel : s.level ≠ 0)
    (h : s.act hist a = some (s', hist')) : s'.level = s.level := by
  have hfull : s.fullFlush.level = s.level := by
    unfold DeflateState.fullFlush
    split <;> rfl
  cases a with
  | header | trailer | reset =>
    obtain ⟨rfl, -⟩ := Prod.mk.inj (Option.some.inj h)
    rfl
  | fill input =>
    obtain ⟨-, h⟩ := Option.ite_none_right_eq_some.mp h
    obtain ⟨rfl, -⟩ := Prod.mk.inj (Option.some.inj h)
    exact fillRound_level s input
  | advance n | flushBlock =>
    obtain ⟨-, h⟩ := Option.ite_none_right_eq_some.mp h
    obtain ⟨rfl, -⟩ := Prod.mk.inj (Option.some.inj h)
    rfl
  | flushed =>
    obtain ⟨-, h⟩ := Option.ite_none_right_eq_some.mp h
    obtain ⟨rfl, -⟩ := Prod.mk.inj (Option.some.inj h)
    exact hfull
  | stored flush input availOut biValid =>
    obtain ⟨hcond, -⟩ := Option.ite_none_right_eq_some.mp h
    exact absurd hcond.1 hlevel
  | setDictionary fuel dictionary =>
    obtain ⟨⟨code, s₁⟩, hset, h⟩ := Option.map_eq_some_iff.mp h
    obtain ⟨rfl, -⟩ := Prod.mk.inj h
    exact setDictionary_level hset
  | params level => exact ha.elim

/-- A stream at a fixed level tracks its history. -/
theorem Run.tracks_fixed {wrap : Int} {level windowBits pendingBufSize : Nat} {window : Nat → UInt8}
    (h8 : 8 ≤ windowBits) (h15 : windowBits ≤ 15) (hlevel : level ≠ 0)
    (h : Run (fun _ a => a.Fixed) (.init wrap level windowBits pendingBufSize window) s hist) :
    s.level = level ∧ ∃ hist', s.Tracks window hist' := by
  induction h with
  | start => exact ⟨rfl, [], tracks_init h8 h15⟩
  | step a h ha hact ih =>
    obtain ⟨hl, hist', ih⟩ := ih
    have hne := hl.trans_ne hlevel
    exact ⟨(act_level ha hne hact).trans hl, ih.near ((ih.room hne).near ha) hact⟩

end DeflateState

/-- Wherever `fill_window` slides in a stream at a fixed level from 1 to 9, whatever its tables
hold, the window, the tables and the positions move together. -/
theorem fillWindow_slides {wrap : Int} {level windowBits pendingBufSize : Nat}
    {window : Nat → UInt8} {s : DeflateState} {hist : List UInt8} {a : Action}
    {t : ChainState} (h8 : 8 ≤ windowBits) (h15 : windowBits ≤ 15) (h1 : 1 ≤ level) (h9 : level ≤ 9)
    (hrun : DeflateState.Run (fun _ a => a.Fixed)
      (.init wrap level windowBits pendingBufSize window) s hist)
    (ha : a.Fixed) (hround : s.RoundIn a t.base) (hslides : t.base.Slides) :
    t.Slid t.settle t.base.slideLen := by
  have hne : level ≠ 0 := by omega
  obtain ⟨hl, hist', htracks⟩ := hrun.tracks_fixed h8 h15 hne
  obtain ⟨hs, hroom, hsize⟩ := htracks.roundIn (hl.trans_ne hne) ha hround
  obtain ⟨n, -, -, hw⟩ := htracks.bits
  exact ChainState.slid_of_shape hs hroom (hsize.trans hw) hslides

/-- A round that does not move the window only reads. -/
theorem DeflateState.fillRound_still {s : DeflateState} (hend : ¬ s.fillEnd ≤ s.strstart)
    (hlast : ¬ s.windowSize - minLookahead < s.fillEnd) (input : List UInt8) :
    s.fillRound input = ({ s with
      window := writeBytes s.window (s.strstart + s.lookahead) (input.take s.more)
      lookahead := s.lookahead + min input.length s.more }, input.drop s.more) := by
  have hsettle : s.settle = s := by
    unfold DeflateState.settle DeflateState.advanceEnd
    rw [if_neg hend]
    exact if_neg hlast
  unfold DeflateState.fillRound
  rw [hsettle]

theorem DeflateState.act_fill {s : DeflateState} {hist input : List UInt8}
    (h : s.level ≠ 0 ∧ s.status = .busy ∧ s.lookahead < minLookahead) :
    s.act hist (.fill input) = some ((s.fillRound input).1,
      hist ++ input.take (input.length - (s.fillRound input).2.length)) := by
  unfold DeflateState.act
  exact if_pos h

theorem DeflateState.act_advance {s : DeflateState} {hist : List UInt8} {n : Nat}
    (h : s.level ≠ 0 ∧ s.status = .busy ∧ n ≤ s.lookahead) :
    s.act hist (.advance n) =
      some ({ s with strstart := s.strstart + n, lookahead := s.lookahead - n }, hist) := by
  unfold DeflateState.act
  exact if_pos h

/-- A stream with the header written. -/
def busyStream : DeflateState :=
  { DeflateState.init 0 6 15 65545 fun _ => 0 with status := .busy }

theorem busyStream_fields : busyStream.strstart = 0 ∧ busyStream.lookahead = 0 ∧
    busyStream.fillEnd = 65274 ∧ busyStream.windowSize = 65536 ∧ busyStream.wSize = 32768 ∧
      busyStream.level = 6 := by
  decide

/-- The stream with a full window, of which it has compressed all but 261 bytes. -/
def fullStream : DeflateState :=
  let s := (busyStream.fillRound (List.replicate 65536 0)).1
  { s with strstart := s.strstart + 65275, lookahead := s.lookahead - 65275 }

theorem filled_fields : (busyStream.fillRound (List.replicate 65536 0)).1.strstart = 0 ∧
    (busyStream.fillRound (List.replicate 65536 0)).1.lookahead = 65536 ∧
    (busyStream.fillRound (List.replicate 65536 0)).1.fillEnd = 65274 ∧
    (busyStream.fillRound (List.replicate 65536 0)).1.windowSize = 65536 ∧
    (busyStream.fillRound (List.replicate 65536 0)).1.wSize = 32768 ∧
    (busyStream.fillRound (List.replicate 65536 0)).1.level = 6 ∧
    (busyStream.fillRound (List.replicate 65536 0)).1.status = .busy := by
  obtain ⟨h1, h2, h3, h4, h5, h6⟩ := busyStream_fields
  have h262 : minLookahead = 262 := rfl
  have hmore : busyStream.more = 65536 := by
    unfold DeflateState.more sub32
    rw [h1, h2, h3]
    decide
  have hstatus : busyStream.status = .busy := rfl
  rw [DeflateState.fillRound_still (by omega) (by omega)]
  dsimp only
  rw [h1, h2, h3, h4, h5, h6, hmore, hstatus, List.length_replicate]
  exact ⟨rfl, rfl, rfl, rfl, rfl, rfl, rfl⟩

theorem fullStream_fields : fullStream.strstart = 65275 ∧ fullStream.lookahead = 261 ∧
    fullStream.fillEnd = 65274 ∧ fullStream.windowSize = 65536 ∧ fullStream.wSize = 32768 ∧
      fullStream.level = 6 ∧ fullStream.status = .busy := by
  obtain ⟨h1, h2, h3, h4, h5, h6, h7⟩ := filled_fields
  unfold fullStream
  dsimp only
  rw [h1, h2, h3, h4, h5, h6, h7]
  exact ⟨rfl, rfl, rfl, rfl, rfl, rfl, rfl⟩

/-- The stream is reached by one fill and one advance. -/
theorem fullStream_run : ∃ hist, DeflateState.Run (fun _ a => a.Fixed)
    (.init 0 6 15 65545 fun _ => 0) fullStream hist := by
  obtain ⟨-, h2, -, -, -, h6, h7⟩ := filled_fields
  obtain ⟨-, b2, -, -, -, b6⟩ := busyStream_fields
  have hheader : DeflateState.Run (fun _ a => a.Fixed) (.init 0 6 15 65545 fun _ => 0)
      busyStream [] := .step .header .start trivial rfl
  have hfilled := hheader.step (.fill (List.replicate 65536 0)) trivial
    (DeflateState.act_fill ⟨by rw [b6]; decide, rfl, by rw [b2]; decide⟩)
  exact ⟨_, hfilled.step (.advance 65275) trivial
    (DeflateState.act_advance ⟨by rw [h6]; decide, h7, by rw [h2]; decide⟩)⟩

theorem fullStream_slides : fullStream.Slides ∧ fullStream.slideLen = 32768 := by
  obtain ⟨h1, -, h3, h4, h5, -, -⟩ := fullStream_fields
  have h262 : minLookahead = 262 := rfl
  constructor
  · unfold DeflateState.Slides DeflateState.advanceEnd
    rw [if_pos (by omega)]
    dsimp only
    omega
  · unfold DeflateState.slideLen DeflateState.maxDist sub32
    rw [h1, h5]
    decide

/-- The full stream with a table of heads. -/
def fullChains (strategy : Strategy) : ChainState where
  base := fullStream
  strategy := strategy
  head := fun _ => 40000
  prev := fun _ => 0
  matchStart := 50000
  prevLength := 3
  insert := 0

theorem fillWindow_slides_full :
    (fullChains .default).Slid (fullChains .default).settle (fullChains .default).base.slideLen := by
  obtain ⟨hist, hrun⟩ := fullStream_run
  obtain ⟨-, hl, -, -, -, hlevel, hstatus⟩ := fullStream_fields
  exact @fillWindow_slides 0 6 15 65545 (fun _ => 0) fullStream hist (.fill []) (fullChains .default)
    (by decide) (by decide) (by decide) (by decide) hrun trivial
    ⟨by rw [hlevel]; decide, hstatus, by rw [hl]; decide, .now⟩ fullStream_slides.1

/-- Without a use for the tables they stay as they are. -/
theorem fillWindow_slides_hashless :
    ¬∀ (wrap : Int) (level windowBits pendingBufSize : Nat) (window : Nat → UInt8)
      (s : DeflateState) (hist : List UInt8) (a : Action) (t : ChainState), 8 ≤ windowBits →
      windowBits ≤ 15 → 1 ≤ level → level ≤ 9 →
      DeflateState.Run (fun _ a => a.Fixed) (.init wrap level windowBits pendingBufSize window) s
        hist → a.Fixed → s.RoundIn a t.base → t.base.Slides → ∀ i < hashSize,
        (t.settle.head i).toNat = slideEntry t.base.slideLen (t.head i).toNat := by
  intro hall
  obtain ⟨hist, hrun⟩ := fullStream_run
  obtain ⟨-, hl, -, -, -, hlevel, hstatus⟩ := fullStream_fields
  have hmoved := hall 0 6 15 65545 (fun _ => 0) fullStream hist (.fill []) (fullChains .huffmanOnly)
    (by decide) (by decide) (by decide) (by decide) hrun trivial
    ⟨by rw [hlevel]; decide, hstatus, by rw [hl]; decide, .now⟩ fullStream_slides.1 0 (by decide)
  have hkept : (fullChains .huffmanOnly).settle.head 0 = 40000 := by
    have hless : ({ fullChains .huffmanOnly with base := fullStream.advanceEnd } :
        ChainState).Hashless := by
      unfold ChainState.Hashless
      right
      left
      rfl
    have hslide := @ChainState.settle_of_slides (fullChains .huffmanOnly) fullStream_slides.1
    rw [hslide, (ChainState.slide_parts _).2.1, ChainState.slideTables]
    exact congrFun (congrArg ChainState.head (if_pos hless)) 0
  have hlen : (fullChains .huffmanOnly).base.slideLen = 32768 := fullStream_slides.2
  have hentry : (fullChains .huffmanOnly).head 0 = 40000 := rfl
  rw [hkept, hlen, hentry] at hmoved
  exact absurd hmoved (by decide)

end ZlibNg
