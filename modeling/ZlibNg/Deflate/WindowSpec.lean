import Mathlib.Data.List.DropRight
import ZlibNg.Deflate.Window
import ZlibNg.Inflate.WindowUpdate

/-! The window holds the newest bytes of the history. -/
namespace ZlibNg

section Bytes
variable {buf : Nat → UInt8} {pos m n : Nat} {xs : List UInt8}

@[simp] theorem length_readBytes : (readBytes buf pos n).length = n := by
  simp [readBytes]

@[simp] theorem readBytes_zero : readBytes buf pos 0 = [] := rfl

theorem readBytes_drop (k : Nat) :
    (readBytes buf pos n).drop k = readBytes buf (pos + k) (n - k) := by
  rw [readBytes, ← List.map_drop, List.drop_range', readBytes]
  simp

theorem readBytes_write :
    readBytes (writeBytes buf pos xs) 0 (pos + xs.length) = readBytes buf 0 pos ++ xs := by
  refine List.ext_getElem (by simp) fun i h1 h2 => ?_
  rw [length_readBytes] at h1
  rw [List.getElem_append]
  simp only [readBytes, List.getElem_map, List.getElem_range', Nat.zero_add, Nat.one_mul,
    List.length_map, List.length_range']
  split
  · next h => exact writeBytes_not_mem (.inl h)
  · next h => rw [writeBytes_mem (by omega) h1, List.getD_eq_getElem _ _ (by omega)]

theorem readBytes_moveDown (k : Nat) : readBytes (moveDown buf k n) 0 n = readBytes buf k n := by
  refine List.ext_getElem (by simp) fun i h1 h2 => ?_
  rw [length_readBytes] at h1
  simp [readBytes, moveDown, h1]

end Bytes

/-- `data` ends with the newest bytes of the history, and goes back as far as matches may. -/
def Recent (w : Nat) (data hist : List UInt8) : Prop :=
  data.rtake w <:+ hist ∧ min hist.length (w - minLookahead) ≤ data.length

namespace Recent
variable {w : Nat} {data hist hist' xs ys : List UInt8}

theorem nil : Recent w [] [] := ⟨by simp, by simp⟩

theorem length_rtake : (data.rtake w).length = min data.length w := by
  rw [List.rtake, List.length_drop]
  omega

theorem rtake_suffix : data.rtake w <:+ data := List.drop_suffix _ _

theorem self (w : Nat) (data : List UInt8) : Recent w data data :=
  ⟨rtake_suffix, Nat.min_le_left _ _⟩

theorem append (h : Recent w data hist) (xs : List UInt8) : Recent w (data ++ xs) (hist ++ xs) := by
  obtain ⟨⟨pre, hpre⟩, hlen⟩ := h
  constructor
  · have hold : data.rtake w ++ xs <:+ data ++ xs := by
      obtain ⟨front, hfront⟩ := @rtake_suffix w data
      exact ⟨front, by rw [← List.append_assoc, hfront]⟩
    have hnew : (data ++ xs).rtake w <:+ data.rtake w ++ xs := by
      refine List.suffix_of_suffix_length_le rtake_suffix hold ?_
      rw [length_rtake, List.length_append, List.length_append, length_rtake]
      omega
    exact hnew.trans ⟨pre, by rw [← List.append_assoc, hpre]⟩
  · simp only [List.length_append]
    omega

theorem drop (h : Recent w data hist) {k : Nat} (hk : w - minLookahead ≤ (data.drop k).length) :
    Recent w (data.drop k) hist :=
  have hsuffix : (data.drop k).rtake w <:+ data.rtake w := by
    refine List.suffix_of_suffix_length_le (rtake_suffix.trans (List.drop_suffix k data))
      rtake_suffix ?_
    rw [length_rtake, length_rtake, List.length_drop]
    omega
  ⟨hsuffix.trans h.1, (Nat.min_le_right _ _).trans hk⟩

/-- Data as long as the window replaces the history before it. -/
theorem supplant (h : Recent w data (hist' ++ xs)) (hw : w ≤ xs.length) (hxs : xs <:+ ys) :
    Recent w data (hist ++ ys) := by
  constructor
  · have hx : data.rtake w <:+ xs := by
      refine List.suffix_of_suffix_length_le h.1 (List.suffix_append _ _) ?_
      rw [length_rtake]
      omega
    exact (hx.trans hxs).trans (List.suffix_append _ _)
  · have := h.2
    rw [List.length_append] at this
    omega

end Recent

namespace DeflateState
variable {s : DeflateState} {hist input : List UInt8}

/-- What the window holds. -/
def data (s : DeflateState) : List UInt8 := readBytes s.window 0 (s.strstart + s.lookahead)

theorem length_data : s.data.length = s.strstart + s.lookahead := length_readBytes

theorem getDictionary_eq : s.getDictionary = s.data.rtake s.wSize := by
  rw [List.rtake, length_data, data, readBytes_drop, getDictionary, Nat.zero_add]
  congr 1 <;> omega

/-- The window is cut in pieces of its nominal size, and the data end with one of them. -/
structure Shape (s : DeflateState) : Prop where
  small : 512 ≤ s.wSize
  limit : s.windowSize ≤ 2 ^ 16
  size : ∃ n, 2 ≤ n ∧ s.windowSize = n * s.wSize
  fill : ∃ n, 2 ≤ n ∧ s.fillEnd + minLookahead = n * s.wSize
  fits : s.fillEnd + minLookahead ≤ s.windowSize

theorem Shape.congr {s' : DeflateState} (h : s.Shape) (hw : s'.wSize = s.wSize)
    (hbuf : s'.windowSize = s.windowSize) (hend : s'.fillEnd = s.fillEnd) : s'.Shape := by
  obtain ⟨h1, h2, h3, h4, h5⟩ := h
  rw [← hw, ← hbuf] at h3
  rw [← hw, ← hend] at h4
  exact ⟨hw ▸ h1, hbuf ▸ h2, h3, h4, hend ▸ hbuf ▸ h5⟩

/-- The end of the data does not lag behind by more than one window. -/
structure Room (s : DeflateState) : Prop where
  fits : s.strstart + s.lookahead ≤ s.windowSize
  behind : s.fillEnd ≤ s.strstart → s.strstart + s.lookahead ≤ s.fillEnd + s.wSize + minLookahead
  ahead : s.strstart < s.fillEnd → s.strstart + s.lookahead ≤ s.fillEnd + minLookahead

theorem Shape.room (h : s.Shape) (hle : s.strstart + s.lookahead ≤ s.fillEnd + minLookahead) :
    s.Room :=
  ⟨hle.trans h.fits, fun _ => by omega, fun _ => hle⟩

/-- The slide takes all but two windows of the buffer. -/
theorem slideLen_eq {w n strstart : Nat} (hw : 512 ≤ w) (hlimit : (n + 2) * w ≤ 2 ^ 16)
    (h1 : (n + 2) * w ≤ strstart + minLookahead) (h2 : strstart ≤ (n + 2) * w) :
    sub32 strstart (w - minLookahead) / w * w = (n + 1) * w := by
  have h262 : minLookahead = 262 := rfl
  have hsplit : (n + 2) * w = (n + 1) * w + w := by ring
  have hpos : w ≤ (n + 1) * w := Nat.le_mul_of_pos_left _ (Nat.succ_pos n)
  have hsub : sub32 strstart (w - minLookahead) = strstart + minLookahead - w := by
    unfold sub32
    omega
  rw [hsub, Nat.div_eq_of_lt_le (k := n + 1) (by omega) (by
    rw [show (n + 1 + 1) * w = (n + 1) * w + w by ring]
    omega)]

/-- What a step keeps; past the end of the window buffer nothing changes. -/
structure Kept (s s' : DeflateState) : Prop where
  level : s'.level = s.level
  wSize : s'.wSize = s.wSize
  windowSize : s'.windowSize = s.windowSize
  outside : ∀ i, s.windowSize ≤ i → s'.window i = s.window i

theorem Kept.refl (s : DeflateState) : Kept s s := ⟨rfl, rfl, rfl, fun _ _ => rfl⟩

theorem Kept.trans {s₁ s₂ s₃ : DeflateState} (h : Kept s₁ s₂) (h' : Kept s₂ s₃) : Kept s₁ s₃ :=
  ⟨h'.level.trans h.level, h'.wSize.trans h.wSize, h'.windowSize.trans h.windowSize, fun i hi =>
    (h'.outside i (h.windowSize.le.trans hi)).trans (h.outside i hi)⟩

/-- The data and the room after the end of the data has moved on and the window has slid. -/
theorem settle_spec (hs : s.Shape) (hroom : s.Room) (hr : Recent s.wSize s.data hist) :
    s.settle.Shape ∧ Kept s s.settle ∧
      s.settle.strstart + s.settle.lookahead ≤ s.settle.fillEnd + minLookahead ∧
        Recent s.wSize s.settle.data hist := by
  have h262 : minLookahead = 262 := rfl
  obtain ⟨hsmall, hlimit, ⟨n, hn, hsize⟩, ⟨q, hq, hfill⟩, hfits⟩ := hs
  obtain ⟨hfit, hbehind, hahead⟩ := hroom
  unfold settle advanceEnd
  dsimp only
  by_cases hend : s.fillEnd ≤ s.strstart
  · have hle := hbehind hend
    rw [if_pos hend]
    dsimp only
    split
    · next hlast =>
      -- the data end with the buffer
      have hqn : q = n := by
        have hlt : n * s.wSize < (q + 1) * s.wSize := by
          rw [Nat.add_mul]
          omega
        have hle : q * s.wSize ≤ n * s.wSize := by omega
        have h1 := Nat.lt_of_mul_lt_mul_right hlt
        have h2 := Nat.le_of_mul_le_mul_right hle (by omega)
        omega
      obtain ⟨k, rfl⟩ := Nat.exists_eq_add_of_le' hn
      subst hqn
      have hslide := slideLen_eq hsmall (hsize ▸ hlimit) (show (k + 2) * s.wSize ≤ s.strstart + _ by
        omega) (by omega)
      have hsplit : (k + 2) * s.wSize = (k + 1) * s.wSize + s.wSize := by ring
      have hpos : s.wSize ≤ (k + 1) * s.wSize := Nat.le_mul_of_pos_left _ (Nat.succ_pos k)
      unfold slide
      simp only [maxDist, hslide]
      refine ⟨⟨hsmall, hlimit, ⟨k + 2, hn, hsize⟩, ⟨2, le_rfl, ?_⟩, ?_⟩,
        ⟨rfl, rfl, rfl, fun i hi => if_neg (by omega)⟩, ?_, ?_⟩
      · dsimp only
        omega
      · dsimp only
        omega
      · omega
      · have hdata : readBytes (moveDown s.window ((k + 1) * s.wSize)
            (s.strstart + s.lookahead - (k + 1) * s.wSize)) 0
            (s.strstart + s.lookahead - (k + 1) * s.wSize) = s.data.drop ((k + 1) * s.wSize) := by
          rw [readBytes_moveDown, data, readBytes_drop, Nat.zero_add]
        have hlen : s.strstart - (k + 1) * s.wSize + s.lookahead =
            s.strstart + s.lookahead - (k + 1) * s.wSize := by omega
        rw [data]
        dsimp only
        rw [hlen, hdata]
        refine hr.drop ?_
        rw [List.length_drop, length_data]
        omega
    · next hlast =>
      refine ⟨⟨hsmall, hlimit, ⟨n, hn, hsize⟩, ⟨q + 1, by omega, ?_⟩, ?_⟩,
        ⟨rfl, rfl, rfl, fun _ _ => rfl⟩, ?_, hr⟩
      · dsimp only
        rw [Nat.add_mul]
        omega
      · dsimp only
        omega
      · exact hle
  · rw [if_neg hend, if_neg (by omega)]
    exact ⟨⟨hsmall, hlimit, ⟨n, hn, hsize⟩, ⟨q, hq, hfill⟩, hfits⟩, .refl s,
      hahead (Nat.lt_of_not_le hend), hr⟩

/-- A round of `fill_window` appends input to the data. -/
theorem fillRound_spec (hs : s.Shape) (hroom : s.Room) (hr : Recent s.wSize s.data hist)
    (input : List UInt8) :
    let r := s.fillRound input
    r.1.Shape ∧ Kept s r.1 ∧ r.1.strstart + r.1.lookahead ≤ r.1.fillEnd + minLookahead ∧
      ∃ xs, input = xs ++ r.2 ∧ Recent s.wSize r.1.data (hist ++ xs) := by
  obtain ⟨h1, h2, h4, h5⟩ := settle_spec hs hroom hr
  dsimp only [fillRound]
  generalize s.settle = t at *
  have hlen : (input.take t.more).length = min input.length t.more := by
    rw [List.length_take, Nat.min_comm]
  have hmore : t.more = t.fillEnd + minLookahead - (t.lookahead + t.strstart) := by
    have := h1.fits
    have := h1.limit
    unfold more sub32
    omega
  have hfits := h1.fits
  refine ⟨h1.congr rfl rfl rfl,
    h2.trans ⟨rfl, rfl, rfl, fun i hi => writeBytes_not_mem (.inr (by omega))⟩, ?_,
    input.take t.more, (List.take_append_drop _ _).symm, ?_⟩
  · omega
  · rw [data]
    dsimp only
    rw [← Nat.add_assoc, ← hlen, readBytes_write]
    exact h5.append _

/-- `fill_window` keeps to the history, and stops with enough lookahead or without input. -/
theorem fillWindow_spec {fuel : Nat} {r : DeflateState × List UInt8} (hs : s.Shape) (hroom : s.Room)
    (hr : Recent s.wSize s.data hist) (h : fillWindow fuel s input = some r) :
    r.1.Shape ∧ Kept s r.1 ∧ r.1.strstart + r.1.lookahead ≤ r.1.fillEnd + minLookahead ∧
      (minLookahead ≤ r.1.lookahead ∨ r.2 = []) ∧
      ∃ xs, input = xs ++ r.2 ∧ Recent s.wSize r.1.data (hist ++ xs) := by
  induction fuel generalizing s hist input with
  | zero => exact absurd h (by simp [fillWindow])
  | succ fuel ih =>
    obtain ⟨h1, h2, h3, xs, hxs, h4⟩ := fillRound_spec hs hroom hr input
    rw [fillWindow] at h
    split at h
    · obtain ⟨g1, g2, g3, g4, ys, hys, g5⟩ := ih h1 (h1.room h3) (h2.wSize.symm ▸ h4) h
      refine ⟨g1, h2.trans g2, g3, g4, xs ++ ys, ?_, ?_⟩
      · rw [hxs, hys, List.append_assoc]
      · rw [h2.wSize] at g5
        rwa [← List.append_assoc]
    · next hstop =>
      obtain rfl := Option.some.inj h
      refine ⟨h1, h2, h3, ?_, xs, hxs, h4⟩
      by_contra hcon
      rw [not_or] at hcon
      exact hstop ⟨Nat.lt_of_not_le hcon.1, hcon.2⟩

theorem skip_spec (hs : s.Shape) (hle : s.strstart + s.lookahead ≤ s.fillEnd + minLookahead)
    (h3 : stdMinMatch ≤ s.lookahead) : s.skip.Shape ∧ s.skip.Room ∧ s.skip.data = s.data := by
  have hstd : stdMinMatch = 3 := rfl
  have hmove : s.skip.strstart + s.skip.lookahead = s.strstart + s.lookahead := by
    simp only [skip]
    omega
  have hshape : s.skip.Shape := hs.congr rfl rfl rfl
  refine ⟨hshape, hshape.room (hmove ▸ hle), ?_⟩
  rw [data, hmove]
  rfl

/-- The data do not change when the next byte to match moves within them. -/
theorem insertLoop_spec {fuel : Nat} {s' : DeflateState} (hs : s.Shape)
    (hle : s.strstart + s.lookahead ≤ s.fillEnd + minLookahead)
    (hrest : minLookahead ≤ s.lookahead ∨ input = []) (hr : Recent s.wSize s.data hist)
    (h : insertLoop fuel s input = some s') :
    s'.Shape ∧ Kept s s' ∧ s'.strstart + s'.lookahead ≤ s'.fillEnd + minLookahead ∧
      Recent s.wSize s'.data (hist ++ input) := by
  induction fuel generalizing s hist input with
  | zero => exact absurd h (by simp [insertLoop])
  | succ fuel ih =>
    have h3 : stdMinMatch = 3 := rfl
    have h262 : minLookahead = 262 := rfl
    rw [insertLoop] at h
    split at h
    · next hlong =>
      obtain ⟨r, hr', h⟩ := Option.bind_eq_some_iff.mp h
      obtain ⟨e1, e2, e3⟩ := skip_spec hs hle hlong
      obtain ⟨g1, g2, g3, g4, xs, hxs, g5⟩ := fillWindow_spec e1 e2
        (show Recent s.skip.wSize s.skip.data hist from e3 ▸ hr) hr'
      obtain ⟨f1, f2, f3, f4⟩ := ih g1 g3 g4 (g2.wSize.symm ▸ g5) h
      refine ⟨f1, Kept.trans ⟨g2.level, g2.wSize, g2.windowSize, g2.outside⟩ f2, f3, ?_⟩
      rw [g2.wSize, List.append_assoc, ← hxs] at f4
      exact f4
    · next hshort =>
      obtain rfl := Option.some.inj h
      have hnil : input = [] := hrest.resolve_left (by omega)
      rw [hnil, List.append_nil]
      exact ⟨hs, .refl s, hle, hr⟩

end DeflateState

end ZlibNg
