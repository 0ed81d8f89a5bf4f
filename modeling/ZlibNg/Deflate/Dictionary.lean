import ZlibNg.Deflate.WindowRun

/-! `deflateGetDictionary` over whole runs: what it returns is the end of the history. -/
namespace ZlibNg

/-- What `deflateGetDictionary` returns is the end of the history, at most a window of it, and as
much as matches may reach. -/
theorem deflateGetDictionary_recent {wrap : Int} {level windowBits pendingBufSize : Nat}
    {window : Nat → UInt8} {s : DeflateState} {hist : List UInt8} (h8 : 8 ≤ windowBits)
    (h15 : windowBits ≤ 15)
    (h : DeflateState.Run (fun s a => a.Fixed ∧ s.Near a ∧ ¬s.Lost a)
      (.init wrap level windowBits pendingBufSize window) s hist) :
    s.getDictionary <:+ hist ∧ s.getDictionary.length ≤ s.wSize ∧
      min hist.length (s.wSize - minLookahead) ≤ s.getDictionary.length := by
  have htracks : s.Tracks window hist := by
    induction h with
    | start => exact DeflateState.tracks_init h8 h15
    | step a h hstep hact ih => exact ih.act hstep.2.1 hstep.2.2 hact
  exact htracks.getDictionary_spec

theorem deflateGetDictionary_recent_fill :
    let s := (DeflateState.fillRound
      { DeflateState.init 0 6 15 65545 fun _ => 0 with status := .busy } [4, 5]).1
    s.getDictionary <:+ [4, 5] ∧ s.getDictionary.length ≤ s.wSize ∧
      min 2 (s.wSize - minLookahead) ≤ s.getDictionary.length :=
  @deflateGetDictionary_recent 0 6 15 65545 (fun _ => 0) _ _ (by decide) (by decide)
    (.step (.fill [4, 5]) (.step .header .start ⟨trivial, trivial, id⟩ rfl) ⟨trivial, trivial, id⟩
      rfl)

/-- Level 0 leaves the window as it is when it ends the stream, so that the dictionary is empty. -/
theorem deflateGetDictionary_finished :
    ¬∀ (wrap : Int) (level windowBits pendingBufSize : Nat) (window : Nat → UInt8)
      (s : DeflateState) (hist : List UInt8), 8 ≤ windowBits → windowBits ≤ 15 →
      DeflateState.Run (fun _ a => a.Fixed) (.init wrap level windowBits pendingBufSize window) s
        hist →
      s.getDictionary <:+ hist ∧ s.getDictionary.length ≤ s.wSize ∧
        min hist.length (s.wSize - minLookahead) ≤ s.getDictionary.length := by
  intro hall
  have hact : DeflateState.act { DeflateState.init 0 0 15 65545 fun _ => 0 with status := .busy } []
      (.stored .finish [7] 64 0) =
      some ({ DeflateState.init 0 0 15 65545 fun _ => 0 with status := .busy }, [7]) := by
    have hfinish := @DeflateState.deflateStored_finish
      { DeflateState.init 0 0 15 65545 fun _ => 0 with status := .busy } [7] (by decide)
      64 0 (by decide)
    rw [DeflateState.act, if_pos ⟨rfl, rfl⟩, hfinish]
    rfl
  have h := hall 0 0 15 65545 (fun _ => 0) _ _ (by decide) (by decide)
    (.step (.stored .finish [7] 64 0) (.step .header .start trivial rfl) trivial hact)
  exact absurd h.2.2 (by decide)

end ZlibNg
