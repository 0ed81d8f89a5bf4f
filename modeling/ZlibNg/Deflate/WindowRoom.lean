import ZlibNg.Deflate.WindowRun

/-! `fill_window` reads within the window buffer, and nothing is written past it. -/
namespace ZlibNg
namespace DeflateState

/-- `fill_window` reads some of the input with the window as in `t`. -/
inductive FillReads : DeflateState → List UInt8 → DeflateState → Prop
  | now {s : DeflateState} {input : List UInt8} (h : input ≠ []) : FillReads s input s.settle
  | later {s t : DeflateState} {input : List UInt8}
      (hshort : (s.fillRound input).1.lookahead < minLookahead) (hrest : (s.fillRound input).2 ≠ [])
      (h : FillReads (s.fillRound input).1 (s.fillRound input).2 t) : FillReads s input t

/-- The loop of `deflateSetDictionary` reads with the window as in `t`. -/
inductive InsertReads : DeflateState → List UInt8 → DeflateState → Prop
  | now {s t : DeflateState} {rest : List UInt8} (hlong : stdMinMatch ≤ s.lookahead)
      (h : FillReads s.skip rest t) : InsertReads s rest t
  | later {s t : DeflateState} {rest : List UInt8} {fuel : Nat} {r : DeflateState × List UInt8}
      (hlong : stdMinMatch ≤ s.lookahead) (hfill : fillWindow fuel s.skip rest = some r)
      (h : InsertReads r.1 r.2 t) : InsertReads s rest t

/-- A step reads with the window as in `t`. -/
def Reads (s : DeflateState) : Action → DeflateState → Prop
  | .fill input, t =>
    s.level ≠ 0 ∧ s.status = .busy ∧ s.lookahead < minLookahead ∧ input ≠ [] ∧ t = s.settle
  | .setDictionary fuel dictionary, t =>
    ¬(s.wrap = 2 ∨ (s.wrap = 1 ∧ s.status ≠ .init) ∨ s.lookahead ≠ 0) ∧
      (FillReads (s.clearFor dictionary.length)
          (dictionary.drop (dictionary.length - s.wSize)) t ∨
        ∃ r, fillWindow fuel (s.clearFor dictionary.length)
            (dictionary.drop (dictionary.length - s.wSize)) = some r ∧ InsertReads r.1 r.2 t)
  | _, _ => False

/-- The room for a read, over the integers, is that of the buffer at most. -/
def Within (t : DeflateState) : Prop :=
  0 ≤ (t.fillEnd + minLookahead - t.lookahead - t.strstart : Int) ∧
    (t.fillEnd + minLookahead - t.lookahead - t.strstart : Int) ≤
      t.windowSize - t.strstart - t.lookahead

variable {s s' t : DeflateState} {w₀ : Nat → UInt8} {hist input : List UInt8}

theorem Shape.within (h : s.Shape) (hle : s.strstart + s.lookahead ≤ s.fillEnd + minLookahead) :
    s.Within := by
  have := h.fits
  unfold Within
  omega

theorem FillReads.within (h : FillReads s input t) (hs : s.Shape) (hroom : s.Room) : t.Within := by
  induction h with
  | now _ =>
    obtain ⟨h1, -, h3, -⟩ := settle_spec hs hroom (Recent.self _ _)
    exact h1.within h3
  | @later s t input _ _ _ ih =>
    obtain ⟨h1, -, h3, -⟩ := fillRound_spec hs hroom (Recent.self _ _) input
    exact ih h1 (h1.room h3)

theorem InsertReads.within (h : InsertReads s input t) (hs : s.Shape)
    (hle : s.strstart + s.lookahead ≤ s.fillEnd + minLookahead) : t.Within := by
  induction h with
  | now hlong h =>
    obtain ⟨h1, h2, -⟩ := skip_spec hs hle hlong
    exact h.within h1 h2
  | later hlong hfill _ ih =>
    obtain ⟨h1, h2, -⟩ := skip_spec hs hle hlong
    obtain ⟨g1, -, g3, -⟩ := fillWindow_spec h1 h2 (Recent.self _ _) hfill
    exact ih g1 g3

theorem slide_lookahead : s.slide.lookahead = s.lookahead := by
  unfold slide
  generalize sub32 s.strstart s.maxDist / s.wSize * s.wSize = slideLen
  rfl

theorem settle_lookahead : s.settle.lookahead = s.lookahead := by
  have hend : s.advanceEnd.lookahead = s.lookahead := by
    unfold advanceEnd
    split <;> rfl
  rw [← hend]
  unfold settle
  generalize s.advanceEnd = t
  dsimp only
  by_cases hlast : t.windowSize - minLookahead < t.fillEnd
  · rw [if_pos hlast, slide_lookahead]
  · rw [if_neg hlast]

/-- Without input nothing is read. -/
theorem FillReads.input_ne (h : FillReads s input t) : input ≠ [] := by
  cases h with
  | now h => exact h
  | later _ hrest =>
    rintro rfl
    exact hrest List.drop_nil

/-- A dictionary without bytes is not read. -/
theorem no_reads {fuel : Nat} (hl : s.lookahead = 0)
    (hread : FillReads s [] t ∨ ∃ r, fillWindow fuel s [] = some r ∧ InsertReads r.1 r.2 t) :
    False := by
  rcases hread with hread | ⟨r, hfill, hread⟩
  · exact hread.input_ne rfl
  · have hround : (s.fillRound []).1.lookahead = 0 := by
      simp only [fillRound, List.length_nil, Nat.zero_min, Nat.add_zero, settle_lookahead, hl]
    cases fuel with
    | zero => cases hfill
    | succ fuel =>
      rw [fillWindow, if_neg (fun hmore => hmore.2 List.drop_nil)] at hfill
      cases hfill
      cases hread with
      | now hlong | later hlong =>
        rw [hround] at hlong
        exact absurd hlong (by decide)

/-- Every read of a step lies within the buffer. -/
theorem Tracks.within (h : s.Tracks w₀ hist) {a : Action} (hnear : s.Near a) (hread : s.Reads a t) :
    t.Within := by
  cases a with
  | fill input =>
    obtain ⟨hlevel, -, -, hne, rfl⟩ := hread
    exact (FillReads.now hne).within h.shape (h.room hlevel)
  | setDictionary fuel dictionary =>
    obtain ⟨haccept, hread⟩ := hread
    rcases hnear with hrefuse | rfl | hnear
    · exact absurd hrefuse haccept
    · rw [List.drop_nil] at hread
      simp only [not_or, not_not] at haccept
      have hl : (s.clearFor ([] : List UInt8).length).lookahead = 0 := by
        unfold DeflateState.clearFor
        split <;> exact haccept.2.2
      exact (no_reads hl hread).elim
    · simp only [not_or, not_not] at haccept
      obtain ⟨h1, h2, -⟩ := h.clearFor haccept.2.2 hnear
      rcases hread with hread | ⟨r, hfill, hread⟩
      · exact hread.within h1 h2
      · obtain ⟨g1, -, g3, -⟩ := fillWindow_spec h1 h2 (Recent.self _ _) hfill
        exact hread.within g1 g3
  | _ => exact hread.elim

/-- What a step does to the stream does not depend on the history. -/
theorem act_fst (s : DeflateState) (g g' : List UInt8) (a : Action) :
    (s.act g a).map Prod.fst = (s.act g' a).map Prod.fst := by
  cases a with
  | setDictionary fuel dictionary => simp only [act, Option.map_map]; rfl
  | stored flush input availOut biValid => simp only [act]; split_ifs <;> rfl
  | header | trailer | reset | flushed => rfl
  | _ => simp only [act]; split_ifs <;> rfl

/-- The end of a stream that goes to the output alone leaves the window as it is. -/
theorem Tracks.lost (h : s.Tracks w₀ hist) {a : Action} (hlost : s.Lost a) {g g' : List UInt8}
    (hact : s.act g a = some (s', g')) : s'.Tracks w₀ hist := by
  cases a with
  | stored flush input availOut biValid =>
    obtain ⟨rfl, -, hroom⟩ := hlost
    obtain ⟨n, -, h15, hw⟩ := h.bits
    have hw' : s.wSize ≤ maxStored := by
      have : 2 ^ n ≤ 2 ^ 15 := Nat.pow_le_pow_right (by decide) h15
      have h65535 : maxStored = 65535 := rfl
      omega
    obtain ⟨hcond, hact⟩ := Option.ite_none_right_eq_some.mp hact
    rw [deflateStored_finish hw' hroom, if_neg (by simp)] at hact
    obtain ⟨rfl, -⟩ := Prod.mk.inj (Option.some.inj hact)
    have hrest := h.stored hcond.1
    exact h.kept ⟨rfl, rfl, rfl, fun _ _ => rfl⟩
      (h.shape.congr rfl rfl rfl) h.recent
      (fun _ => ⟨hrest.lookahead, hrest.fits, Int.natCast_nonneg _, le_rfl⟩)
      fun h0 => absurd hcond.1 h0
  | _ => exact hlost.elim

/-- The window keeps its shape also where input is lost to it. -/
theorem Tracks.near (h : s.Tracks w₀ hist) {a : Action} (hnear : s.Near a) {g g' : List UInt8}
    (hact : s.act g a = some (s', g')) : ∃ hist', s'.Tracks w₀ hist' := by
  by_cases hlost : s.Lost a
  · exact ⟨hist, h.lost hlost hact⟩
  · have hsome := act_fst s g hist a
    rw [hact, Option.map_some] at hsome
    obtain ⟨⟨s₁, hist'⟩, hact', rfl⟩ := Option.map_eq_some_iff.mp hsome.symm
    exact ⟨hist', h.act hnear hlost hact'⟩

/-- A window of half the buffer is never left behind. -/
theorem Tracks.near_of_large (h : s.Tracks w₀ hist) (hlarge : 2 ^ 14 ≤ s.wSize) (a : Action) :
    s.Near a := by
  have hsize := h.size
  obtain ⟨n, hn, hfill⟩ := h.shape.fill
  have htwo : 2 * s.wSize ≤ n * s.wSize := Nat.mul_le_mul_right _ hn
  have hbuf : wBufSize s.wSize = 2 * s.wSize := max_eq_left (by
    have h32768 : wBufMin = 32768 := rfl
    omega)
  have hfits := h.fits
  cases a with
  | setDictionary fuel dictionary => exact .inr (.inr (.inr (by omega)))
  | params level => exact fun _ _ => by omega
  | _ => trivial

end DeflateState

/-- As long as `deflate_stored` is never more than one window ahead of `fill_end` where a dictionary
is loaded or level 0 is left, every read of `fill_window` has the room that the buffer has, the data
lie within the buffer, and nothing is written past it. -/
theorem fillWindow_within {wrap : Int} {level windowBits pendingBufSize : Nat} {window : Nat → UInt8}
    {s : DeflateState} {hist : List UInt8} (h8 : 8 ≤ windowBits) (h15 : windowBits ≤ 15)
    (h : DeflateState.Run DeflateState.Near (.init wrap level windowBits pendingBufSize window) s
      hist) :
    s.strstart + s.lookahead ≤ s.windowSize ∧ (∀ i, s.windowSize ≤ i → s.window i = window i) ∧
      ∀ a t, s.Near a → s.Reads a t → t.Within := by
  have htracks : ∃ hist', s.Tracks window hist' := by
    induction h with
    | start => exact ⟨[], DeflateState.tracks_init h8 h15⟩
    | step a h hstep hact ih =>
      obtain ⟨hist', ih⟩ := ih
      exact ih.near hstep hact
  obtain ⟨hist', htracks⟩ := htracks
  exact ⟨htracks.fits, htracks.outside, fun a t => htracks.within⟩

/-- Three bytes at level 0, in a window of 512. -/
def storedThree : DeflateState :=
  (DeflateState.deflateStored { DeflateState.init 0 0 9 65545 fun _ => 0 with status := .busy }
    .block [7, 7, 7] 64 0).2.1

/-- A dictionary is loaded behind them, and the level changes. -/
theorem fillWindow_within_levels :
    ∃ (s : DeflateState) (hist : List UInt8),
      DeflateState.Run DeflateState.Near (.init 0 0 9 65545 fun _ => 0) s hist ∧ s.level = 6 ∧
        s.strstart = 7 ∧ s.strstart + s.lookahead ≤ s.windowSize ∧
        (∀ i, s.windowSize ≤ i → s.window i = 0) ∧ s.Reads (.fill [5]) s.settle ∧
        s.settle.Within := by
  have hthree : storedThree.strstart = 3 ∧ storedThree.fillEnd = 762 := by decide +kernel
  have hset : (storedThree.setDictionary 8 [1, 2, 3, 4]).map (fun r => (r.2.strstart,
      r.2.blockStart, r.2.lookahead, r.2.fillEnd)) = some (7, 7, 0, 762) := by
    decide +kernel
  have hkeep : (storedThree.setDictionary 8 [1, 2, 3, 4]).map (fun r => decide (r.2.status = .busy)) =
      some true := by
    decide +kernel
  obtain ⟨⟨code, s⟩, hsome, hfields⟩ := Option.map_eq_some_iff.mp hset
  rw [hsome] at hkeep
  simp only [Prod.mk.injEq] at hfields
  obtain ⟨hstart, hblock, hahead, hend⟩ := hfields
  have hbusy : s.status = .busy := of_decide_eq_true (Option.some.inj hkeep)
  obtain ⟨hist, hstore⟩ : ∃ hist, DeflateState.act
      { DeflateState.init 0 0 9 65545 fun _ => 0 with status := .busy } []
      (.stored .block [7, 7, 7] 64 0) = some (storedThree, hist) := ⟨_, rfl⟩
  obtain ⟨hist', hload⟩ : ∃ hist', storedThree.act hist (.setDictionary 8 [1, 2, 3, 4]) =
      some (s, hist') := ⟨_, by rw [DeflateState.act, hsome]; rfl⟩
  have hlevel : s.act hist' (.params 6) = some ({ s with level := 6 }, hist') :=
    if_pos (.inr ⟨hahead, by rw [hblock, hstart]; rfl⟩)
  have hnear : storedThree.Near (.setDictionary 8 [1, 2, 3, 4]) :=
    .inr (.inr (.inr (by omega)))
  have hrun : DeflateState.Run DeflateState.Near (.init 0 0 9 65545 fun _ => 0)
      { s with level := 6 } hist' :=
    .step (.params 6)
      (.step (.setDictionary 8 [1, 2, 3, 4])
        (.step (.stored .block [7, 7, 7] 64 0) (.step .header .start trivial rfl) trivial hstore)
        hnear hload)
      (fun _ _ => by rw [hstart, hend]; omega) hlevel
  obtain ⟨hfits, houtside, hreads⟩ := fillWindow_within (by decide) (by decide) hrun
  have hread : DeflateState.Reads { s with level := 6 } (.fill [5])
      (DeflateState.settle { s with level := 6 }) :=
    ⟨Nat.succ_ne_zero 5, hbusy, by rw [hahead]; decide, List.cons_ne_nil _ _, rfl⟩
  exact ⟨_, _, hrun, rfl, hstart, hfits, houtside, hread, hreads (.fill [5]) _ trivial hread⟩

/-- A window of 512 bytes holds 2000 at level 0, and the room for a dictionary is negative. -/
theorem fillWindow_behind :
    ¬∀ (wrap : Int) (level windowBits pendingBufSize : Nat) (window : Nat → UInt8)
      (s : DeflateState) (hist : List UInt8), 8 ≤ windowBits → windowBits ≤ 15 →
      DeflateState.Run (fun _ _ => True) (.init wrap level windowBits pendingBufSize window) s hist →
      s.strstart + s.lookahead ≤ s.windowSize ∧ (∀ i, s.windowSize ≤ i → s.window i = window i) ∧
        ∀ a t, s.Reads a t → t.Within := by
  intro hall
  have hbytes : (List.replicate 2000 (7 : UInt8)).length = 2000 := List.length_replicate
  have hinit := @DeflateState.tracks_init 0 0 9 65545 (fun _ => 0) (by decide) (by decide)
  obtain ⟨hsame, hrest, -⟩ := @DeflateState.deflateStored_spec
    { DeflateState.init 0 0 9 65545 fun _ => 0 with status := .busy } [] (List.replicate 2000 7)
    .noFlush ⟨hinit.shape.small, hinit.shape.limit, hinit.shape.size, hinit.shape.fill,
      hinit.shape.fits⟩ ⟨rfl, by decide, by decide, by decide⟩ Recent.nil 4 0
    (fun h => absurd h.1 (by decide))
  obtain ⟨hstart, hwrap⟩ := @DeflateState.deflateStored_held
    { DeflateState.init 0 0 9 65545 fun _ => 0 with status := .busy } (List.replicate 2000 7)
    4 0 (by decide) (by rw [hbytes]; decide)
  have hrun := hall 0 0 9 65545 (fun _ => 0) _ _ (by decide) (by decide)
    (.step (.stored .noFlush (List.replicate 2000 7) 4 0) (.step .header .start trivial rfl) trivial
      rfl)
  generalize (DeflateState.deflateStored
    { DeflateState.init 0 0 9 65545 fun _ => 0 with status := .busy } .noFlush
      (List.replicate 2000 7) 4 0).2.1 = s at *
  have h512 : s.wSize = 512 := hsame.wSize
  have h762 : s.fillEnd = 762 := hsame.fillEnd
  have hbuffer : s.windowSize = 32768 := hsame.windowSize
  have h0 : s.wrap = 0 := hwrap
  have h2000 : s.strstart = 2000 := hstart.trans (by rw [hbytes]; rfl)
  have hclear : s.clearFor [(1 : UInt8)].length = s := if_neg fun h => by
    rw [h512] at h
    exact absurd h.1 (by decide)
  have hread : s.Reads (.setDictionary 4 [1]) s.settle := by
    refine ⟨?_, .inl ?_⟩
    · simp [h0, hrest.lookahead]
    · rw [hclear, h512]
      exact .now (by decide)
  have hsettle : s.settle = { s with fillEnd := 1274 } := by
    have hle : s.fillEnd ≤ s.strstart := by omega
    have h262 : minLookahead = 262 := rfl
    rw [DeflateState.settle, DeflateState.advanceEnd, if_pos hle, h762, h512]
    exact if_neg (by dsimp only; omega)
  have hwithin := (hrun.2.2 _ _ hread).1
  rw [hsettle] at hwithin
  simp only [h2000, hrest.lookahead] at hwithin
  exact absurd hwithin (by decide)

end ZlibNg
