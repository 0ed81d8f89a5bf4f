import ZlibNg.Deflate.Stored
import ZlibNg.Deflate.WindowSpec

/-! What `deflate_stored` keeps in the window. -/
namespace ZlibNg

/-- The output that a last stored block needs, with the blocks before it, when `total` bytes are to
be written. -/
def lastBlockRoom (biValid total : Nat) : Nat :=
  storedHeader biValid + total + 5 * ((total - 1) / maxStored)

/-- The loop writes no more than it has, and the last block only where all of them fit. -/
theorem storedLoop_spec {flush : Flush} {minBlock : Nat} (left availIn availOut biValid : Nat) :
    let r := storedLoop flush minBlock left availIn availOut biValid
    r.left ≤ left ∧ r.availIn ≤ availIn ∧
      (r.last → flush = .finish ∧ lastBlockRoom biValid (left + availIn) ≤ availOut) := by
  induction availOut using Nat.strong_induction_on generalizing left availIn biValid with
  | h availOut ih =>
    have hheader : 5 ≤ storedHeader biValid := by
      unfold storedHeader
      omega
    have hmax : maxStored = 65535 := rfl
    unfold storedLoop
    split
    · exact ⟨le_rfl, le_rfl, fun h => absurd h (by simp)⟩
    · next hout =>
      dsimp only
      split
      · exact ⟨le_rfl, le_rfl, fun h => absurd h (by simp)⟩
      · split
        · next hlast =>
          refine ⟨Nat.sub_le _ _, Nat.sub_le _ _, fun _ => ⟨hlast.1, ?_⟩⟩
          simp only [lastBlockRoom, hmax]
          omega
        · generalize hlen : min (min maxStored (left + availIn)) (availOut - storedHeader biValid) =
            len
          obtain ⟨h1, h2, h3⟩ := ih (availOut - storedHeader biValid - len) (by omega)
            (left - min left len) (availIn - (len - min left len)) 0
          refine ⟨h1.trans (Nat.sub_le _ _), h2.trans (Nat.sub_le _ _), fun h => ?_⟩
          obtain ⟨hfinish, hroom⟩ := h3 h
          refine ⟨hfinish, ?_⟩
          have h0 : storedHeader 0 = 5 := rfl
          simp only [lastBlockRoom, hmax] at hroom ⊢
          omega

/-- Where all blocks fit, the loop does write the last one. -/
theorem storedLoop_last {minBlock : Nat} (hmin : minBlock ≤ maxStored)
    (left availIn availOut biValid : Nat)
    (hroom : lastBlockRoom biValid (left + availIn) ≤ availOut) :
    let r := storedLoop .finish minBlock left availIn availOut biValid
    r.last = true ∧ r.left = 0 ∧ r.availIn = 0 := by
  induction availOut using Nat.strong_induction_on generalizing left availIn biValid with
  | h availOut ih =>
    have hheader : 5 ≤ storedHeader biValid := by
      unfold storedHeader
      omega
    have h0 : storedHeader 0 = 5 := rfl
    simp only [lastBlockRoom, maxStored] at hroom hmin ih
    unfold storedLoop
    simp only [maxStored]
    rw [if_neg (by omega)]
    have hwrite : ¬(min (min 65535 (left + availIn)) (availOut - storedHeader biValid) < minBlock ∧
        ((min (min 65535 (left + availIn)) (availOut - storedHeader biValid) = 0 ∧
          Flush.finish ≠ .finish) ∨ Flush.finish = .noFlush ∨
          min (min 65535 (left + availIn)) (availOut - storedHeader biValid) ≠ left + availIn)) := by
      rintro ⟨hshort, ⟨-, hf⟩ | hf | hf⟩
      · exact hf rfl
      · exact absurd hf (by decide)
      · omega
    rw [if_neg hwrite]
    split
    · refine ⟨rfl, ?_, ?_⟩
      · dsimp only
        omega
      · dsimp only
        omega
    · next hmore =>
      have hlong : 65535 < left + availIn := by
        by_contra hle
        exact hmore ⟨trivial, by omega⟩
      exact ih _ (by omega) _ _ 0 (by omega)

namespace DeflateState
variable {s : DeflateState} {hist input : List UInt8} {flush : Flush}

/-- Between calls at level 0 the window holds no lookahead. -/
structure AtRest (s : DeflateState) : Prop where
  lookahead : s.lookahead = 0
  fits : s.strstart ≤ s.windowSize
  start_nonneg : 0 ≤ s.blockStart
  start_le : s.blockStart ≤ s.strstart

/-- `deflate_stored` does not move the end of the data that `fill_window` keeps. -/
structure SameEnd (s s' : DeflateState) : Prop extends Kept s s' where
  fillEnd : s'.fillEnd = s.fillEnd

theorem SameEnd.refl (s : DeflateState) : SameEnd s s := ⟨.refl s, rfl⟩

theorem SameEnd.trans {s₁ s₂ s₃ : DeflateState} (h : SameEnd s₁ s₂) (h' : SameEnd s₂ s₃) :
    SameEnd s₁ s₃ :=
  ⟨h.toKept.trans h'.toKept, h'.fillEnd.trans h.fillEnd⟩

theorem SameEnd.shape {s' : DeflateState} (h : SameEnd s s') (hs : s.Shape) : s'.Shape :=
  hs.congr h.wSize h.windowSize h.fillEnd

theorem AtRest.data (h : s.AtRest) : s.data = readBytes s.window 0 s.strstart := by
  rw [DeflateState.data, h.lookahead, Nat.add_zero]

/-- Data copied to the output are appended to those of the window, or supplant them. -/
theorem storedUpdate_spec (hs : s.Shape) (h : s.AtRest) (hr : Recent s.wSize s.data hist)
    (copied : List UInt8) :
    SameEnd s (s.storedUpdate copied) ∧ (s.storedUpdate copied).AtRest ∧
      Recent s.wSize (s.storedUpdate copied).data (hist ++ copied) := by
  obtain ⟨n, hn, hsize⟩ := hs.size
  have htwo : 2 * s.wSize ≤ s.windowSize := hsize ▸ Nat.mul_le_mul_right _ hn
  rw [h.data] at hr
  have hfits := h.fits
  unfold storedUpdate
  split
  · next hlong =>
    have hlen : (copied.drop (copied.length - s.wSize)).length = s.wSize := by
      rw [List.length_drop]
      omega
    refine ⟨⟨⟨rfl, rfl, rfl, fun i hi => writeBytes_not_mem (.inr (by omega))⟩, rfl⟩,
      ⟨h.lookahead, ?_, Int.natCast_nonneg _, le_rfl⟩, ?_⟩
    · dsimp only
      omega
    · have hdata : readBytes (writeBytes s.window 0 (copied.drop (copied.length - s.wSize))) 0
          s.wSize = copied.drop (copied.length - s.wSize) := by
        have hwrite := @readBytes_write s.window 0 (copied.drop (copied.length - s.wSize))
        rwa [hlen, Nat.zero_add] at hwrite
      rw [DeflateState.data]
      dsimp only
      rw [h.lookahead, Nat.add_zero, hdata]
      exact (Recent.nil.append _).supplant hlen.ge (List.drop_suffix _ _)
  · next hshort =>
    dsimp only
    split
    · next hfull =>
      refine ⟨⟨⟨rfl, rfl, rfl, fun i hi =>
        (writeBytes_not_mem (.inr (show s.wSize + copied.length ≤ i by omega))).trans
          (if_neg (by omega))⟩, rfl⟩, ⟨h.lookahead, ?_, Int.natCast_nonneg _, le_rfl⟩, ?_⟩
      · dsimp only
        omega
      · rw [DeflateState.data]
        dsimp only
        rw [h.lookahead, Nat.add_zero, readBytes_write, readBytes_moveDown]
        refine Recent.append ?_ _
        have hdrop := hr.drop (k := s.strstart - s.wSize) (by
          rw [List.length_drop, length_readBytes]
          omega)
        rw [readBytes_drop] at hdrop
        rwa [Nat.zero_add, show s.strstart - (s.strstart - s.wSize) = s.wSize by omega] at hdrop
    · next hroom =>
      refine ⟨⟨⟨rfl, rfl, rfl, fun i hi => writeBytes_not_mem (.inr (by omega))⟩, rfl⟩,
        ⟨h.lookahead, ?_, Int.natCast_nonneg _, le_rfl⟩, ?_⟩
      · dsimp only
        omega
      · rw [DeflateState.data]
        dsimp only
        rw [h.lookahead, Nat.add_zero, readBytes_write]
        exact hr.append _

/-- A slide keeps a whole window of history. -/
theorem storedSlide_spec (h : s.AtRest) (hr : Recent s.wSize s.data hist) (availIn : Nat) :
    SameEnd s (s.storedSlide availIn) ∧ (s.storedSlide availIn).AtRest ∧
      Recent s.wSize (s.storedSlide availIn).data hist := by
  have hfits := h.fits
  have hle := h.start_le
  unfold storedSlide
  split
  · next hcond =>
    refine ⟨⟨⟨rfl, rfl, rfl, fun i hi => if_neg (by omega)⟩, rfl⟩, ⟨h.lookahead, ?_, ?_, ?_⟩, ?_⟩
    · dsimp only
      omega
    · dsimp only
      omega
    · dsimp only
      omega
    · rw [DeflateState.data]
      dsimp only
      rw [h.lookahead, Nat.add_zero, readBytes_moveDown]
      have hdrop := hr.drop (k := min s.blockStart.toNat (s.strstart - s.wSize)) (by
        rw [List.length_drop, length_data]
        omega)
      rwa [h.data, readBytes_drop, Nat.zero_add] at hdrop
  · exact ⟨.refl s, h, hr⟩

theorem storedRead_spec (h : s.AtRest) (hr : Recent s.wSize s.data hist) (input : List UInt8) :
    SameEnd s (s.storedRead input) ∧ (s.storedRead input).AtRest ∧
      Recent s.wSize (s.storedRead input).data
        (hist ++ input.take (s.windowSize - s.strstart)) := by
  have hfits := h.fits
  have hle := h.start_le
  have hlen : (input.take (s.windowSize - s.strstart)).length ≤ s.windowSize - s.strstart :=
    List.length_take_le _ _
  refine ⟨⟨⟨rfl, rfl, rfl, fun i hi => writeBytes_not_mem (.inr (by omega))⟩, rfl⟩,
    ⟨h.lookahead, ?_, h.start_nonneg, ?_⟩, ?_⟩
  · simp only [storedRead]
    omega
  · simp only [storedRead]
    omega
  · have hdata : (s.storedRead input).data =
        s.data ++ input.take (s.windowSize - s.strstart) := by
      rw [DeflateState.data, h.data, ← readBytes_write, List.length_take]
      simp only [storedRead, h.lookahead, Nat.add_zero]
    rw [hdata]
    exact hr.append _

theorem storedPending_spec (h : s.AtRest) (flush : Flush) (availIn biValid : Nat) :
    let r := (s.storedPending flush availIn biValid).2
    SameEnd s r ∧ r.AtRest ∧ r.data = s.data := by
  have hnonneg := h.start_nonneg
  have hle := h.start_le
  unfold storedPending
  dsimp only
  split
  · refine ⟨⟨⟨rfl, rfl, rfl, fun _ _ => rfl⟩, rfl⟩, ⟨h.lookahead, h.fits, ?_, ?_⟩, rfl⟩
    · dsimp only
      omega
    · dsimp only
      omega
  · exact ⟨.refl s, h, rfl⟩

/-- `deflate_stored` keeps to the history, unless it writes the last block with input that went
directly to the output. -/
theorem deflateStored_spec (hs : s.Shape) (h : s.AtRest) (hr : Recent s.wSize s.data hist)
    {availOut biValid : Nat}
    (hlast : ¬(flush = .finish ∧ input ≠ [] ∧
      lastBlockRoom biValid ((s.strstart - s.blockStart).toNat + input.length) ≤ availOut)) :
    let r := s.deflateStored flush input availOut biValid
    SameEnd s r.2.1 ∧ r.2.1.AtRest ∧ Recent s.wSize r.2.1.data (hist ++ input.take r.2.2) := by
  obtain ⟨hleft, hin, hroom⟩ := @storedLoop_spec flush (min (s.pendingBufSize - 5) s.wSize)
    (s.strstart - s.blockStart).toNat input.length availOut biValid
  have hnonneg := h.start_nonneg
  have hle := h.start_le
  unfold deflateStored
  generalize storedLoop flush _ _ _ availOut biValid = c at *
  obtain ⟨left, availIn, bits, last⟩ := c
  dsimp only at hleft hin hroom ⊢
  -- the blocks that are written take data from the front
  have hs₁ : SameEnd s { s with blockStart := s.strstart - left } :=
    ⟨⟨rfl, rfl, rfl, fun _ _ => rfl⟩, rfl⟩
  have h₁ : AtRest { s with blockStart := s.strstart - left } := by
    refine ⟨h.lookahead, h.fits, ?_, ?_⟩
    · dsimp only
      omega
    · dsimp only
      omega
  have hr₁ : Recent s.wSize (DeflateState.data { s with blockStart := s.strstart - left }) hist := hr
  generalize ({ s with blockStart := s.strstart - left } : DeflateState) = s₁ at *
  cases last with
  | true =>
    obtain ⟨hfinish, hfit⟩ := hroom rfl
    have hnil : input = [] := by
      by_contra hne
      exact hlast ⟨hfinish, hne, hfit⟩
    subst hnil
    simp only [not_true_eq_false, and_false, if_false, if_true, List.take_nil, List.append_nil]
    exact ⟨hs₁, h₁, hr₁⟩
  | false =>
    -- all input that was used is in the window now
    have hupdate : ∃ s₂, (if input.length - availIn ≠ 0 ∧ ¬false then
        s₁.storedUpdate (input.take (input.length - availIn)) else s₁) = s₂ ∧ SameEnd s s₂ ∧
          s₂.AtRest ∧ Recent s.wSize s₂.data (hist ++ input.take (input.length - availIn)) := by
      refine ⟨_, rfl, ?_⟩
      split
      · rw [← hs₁.wSize] at hr₁ ⊢
        obtain ⟨g1, g2, g3⟩ := storedUpdate_spec (hs₁.shape hs) h₁ hr₁
          (input.take (input.length - availIn))
        exact ⟨hs₁.trans g1, g2, g3⟩
      · next hused =>
        have h0 : input.length - availIn = 0 := by simpa using hused
        rw [h0, List.take_zero, List.append_nil]
        exact ⟨hs₁, h₁, hr₁⟩
    obtain ⟨s₂, heq, hs₂, h₂, hr₂⟩ := hupdate
    rw [heq]
    rw [if_neg (by simp)]
    split
    · exact ⟨hs₂, h₂, hr₂⟩
    · rw [← hs₂.wSize] at hr₂
      obtain ⟨a1, a2, a3⟩ := storedSlide_spec h₂ hr₂ availIn
      rw [← a1.wSize] at a3
      obtain ⟨b1, b2, b3⟩ := storedRead_spec a2 a3 (input.drop (input.length - availIn))
      obtain ⟨c1, c2, c3⟩ := storedPending_spec b2 flush (availIn -
        min ((s₂.storedSlide availIn).windowSize - (s₂.storedSlide availIn).strstart) availIn) bits
      refine ⟨((hs₂.trans a1).trans b1).trans c1, c2, ?_⟩
      rw [c3, ← hs₂.wSize, ← a1.wSize]
      have hlen : (input.drop (input.length - availIn)).length = availIn := by
        rw [List.length_drop]
        omega
      have htake : input.take (input.length - availIn +
          min ((s₂.storedSlide availIn).windowSize - (s₂.storedSlide availIn).strstart) availIn) =
          input.take (input.length - availIn) ++ (input.drop (input.length - availIn)).take
            ((s₂.storedSlide availIn).windowSize - (s₂.storedSlide availIn).strstart) := by
        rw [List.take_add, ← List.take_take, List.take_of_length_le hlen.le]
      rw [htake, ← List.append_assoc]
      exact b3

/-- Without room for the header of a block the input stays in the window. -/
theorem deflateStored_held {availOut biValid : Nat} (hout : availOut < storedHeader biValid)
    (hfit : input.length ≤ s.windowSize - s.strstart) :
    let r := s.deflateStored .noFlush input availOut biValid
    r.2.1.strstart = s.strstart + input.length ∧ r.2.1.wrap = s.wrap := by
  unfold deflateStored
  rw [storedLoop, if_pos hout]
  dsimp only
  rw [Nat.sub_self, if_neg (by simp), if_neg (by simp), if_neg (by simp), storedSlide,
    if_neg (by dsimp only; omega)]
  unfold storedPending
  dsimp only
  split
  · simp only [storedRead, Nat.min_eq_right hfit, List.drop_zero, and_self]
  · simp only [storedRead, Nat.min_eq_right hfit, List.drop_zero, and_self]

/-- When everything fits behind `Z_FINISH`, the input goes to the output alone. -/
theorem deflateStored_finish (hw : s.wSize ≤ maxStored) {availOut biValid : Nat}
    (hroom : lastBlockRoom biValid ((s.strstart - s.blockStart).toNat + input.length) ≤ availOut) :
    s.deflateStored .finish input availOut biValid =
      (.finishDone, { s with blockStart := s.strstart }, input.length) := by
  obtain ⟨hlast, hleft, hin⟩ := storedLoop_last ((Nat.min_le_right (s.pendingBufSize - 5) _).trans hw)
    _ _ _ _ hroom
  unfold deflateStored
  generalize storedLoop .finish _ _ _ availOut biValid = c at *
  obtain ⟨left, availIn, bits, last⟩ := c
  dsimp only at hlast hleft hin
  subst hlast hleft hin
  simp

end DeflateState

end ZlibNg
