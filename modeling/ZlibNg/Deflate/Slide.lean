import ZlibNg.Deflate.WindowRoom

/-! The slide of `fill_window`, with the hash chains and the positions that refer to the window. -/
namespace ZlibNg

def hashSize : Nat := 65536

/-- The strategies of `deflateInit2`. -/
inductive Strategy where
  | default | filtered | huffmanOnly | rle | fixed
  deriving DecidableEq

/-- `slide_hash_c_chain`. -/
def slideHashChain (table : Nat → UInt16) (entries : Nat) (wsize : UInt16) : Nat → UInt16 := fun i =>
  if i < entries then if wsize ≤ table i then table i - wsize else 0 else table i

/-- `deflate_state`, as far as `fill_window` slides it. -/
structure ChainState where
  base : DeflateState
  strategy : Strategy
  head : Nat → UInt16
  prev : Nat → UInt16
  matchStart : Nat
  prevLength : Nat
  insert : Nat

namespace DeflateState

/-- `slide_len`: as far as possible while keeping `MAX_DIST` bytes of history. -/
def slideLen (s : DeflateState) : Nat := sub32 s.strstart s.maxDist / s.wSize * s.wSize

/-- The window slides in a round of `fill_window`. -/
def Slides (s : DeflateState) : Prop :=
  s.advanceEnd.windowSize - minLookahead < s.advanceEnd.fillEnd

instance (s : DeflateState) : Decidable s.Slides := by unfold Slides; infer_instance

end DeflateState

namespace ChainState

/-- `HASHLESS`. -/
def Hashless (s : ChainState) : Prop :=
  s.base.level = 0 ∨ s.strategy = .huffmanOnly ∨ s.strategy = .rle

instance (s : ChainState) : Decidable s.Hashless := by unfold Hashless; infer_instance

/-- `slide_hash_head_c`. -/
def slideHashHead (slideLen : Nat) (s : ChainState) : ChainState :=
  { s with head := slideHashChain s.head hashSize (UInt16.ofNat slideLen) }

/-- `slide_hash_c`. -/
def slideHash (slideLen : Nat) (s : ChainState) : ChainState :=
  { s with
    head := slideHashChain s.head hashSize (UInt16.ofNat slideLen)
    prev := slideHashChain s.prev s.base.wSize (UInt16.ofNat slideLen) }

/-- The tables that slide; `deflate_quick` reads the chain head but never walks `prev`. -/
def slideTables (slideLen : Nat) (s : ChainState) : ChainState :=
  if s.Hashless then s
  else if s.base.level = 1 then s.slideHashHead slideLen
  else s.slideHash slideLen

/-- The slide of `fill_window`. -/
def slide (s : ChainState) : ChainState :=
  let slideLen := s.base.slideLen
  let s := s.slideTables slideLen
  { s with
    base := s.base.slide
    matchStart := if slideLen ≤ s.matchStart then s.matchStart - slideLen else 0
    prevLength := if slideLen ≤ s.matchStart then s.prevLength else 0
    insert := if s.base.slide.strstart < s.insert then s.base.slide.strstart else s.insert }

/-- Where the window lies when `fill_window` reads into it. -/
def settle (s : ChainState) : ChainState :=
  let s := { s with base := s.base.advanceEnd }
  if s.base.windowSize - minLookahead < s.base.fillEnd then s.slide else s

/-- The positions above `limit` that a walk along a chain visits, from `pos` on. -/
def visits (s : ChainState) (limit : Nat) : Nat → Nat → List Nat
  | 0, _ => []
  | n + 1, pos =>
    if pos ≤ limit then []
    else pos :: visits s limit n (s.prev (pos &&& (s.base.wSize - 1))).toNat

/-- Where a search stops, `MAX_DIST` bytes before the string. -/
def limit (s : ChainState) : Nat := s.base.strstart - s.base.maxDist

/-- The tables are apart from the window. -/
theorem slideTables_rest (slideLen : Nat) (s : ChainState) :
    (s.slideTables slideLen).base = s.base ∧
      (s.slideTables slideLen).matchStart = s.matchStart ∧
      (s.slideTables slideLen).prevLength = s.prevLength ∧
      (s.slideTables slideLen).insert = s.insert := by
  unfold slideTables
  split
  · exact ⟨rfl, rfl, rfl, rfl⟩
  · split
    · exact ⟨rfl, rfl, rfl, rfl⟩
    · exact ⟨rfl, rfl, rfl, rfl⟩

/-- Without its tables the window is the one modelled before. -/
theorem settle_base (s : ChainState) : s.settle.base = s.base.settle := by
  unfold settle DeflateState.settle
  dsimp only
  split
  · simp only [slide, (slideTables_rest _ _).1]
  · rfl

end ChainState

/-- What is left of a position in a table. -/
def slideEntry (slideLen e : Nat) : Nat := if slideLen ≤ e then e - slideLen else 0

theorem slideHashChain_eq {table : Nat → UInt16} {entries slideLen i : Nat} (hi : i < entries)
    (h : slideLen < 2 ^ 16) :
    (slideHashChain table entries (UInt16.ofNat slideLen) i).toNat =
      slideEntry slideLen (table i).toNat := by
  have hlen : (UInt16.ofNat slideLen).toNat = slideLen := UInt16.toNat_ofNat_of_lt' h
  rw [slideHashChain, if_pos hi, slideEntry]
  by_cases hle : slideLen ≤ (table i).toNat
  · have hle' : UInt16.ofNat slideLen ≤ table i := by
      rw [UInt16.le_iff_toNat_le, hlen]
      exact hle
    rw [if_pos hle', if_pos hle, UInt16.toNat_sub_of_le _ _ hle', hlen]
  · have hle' : ¬ UInt16.ofNat slideLen ≤ table i := by
      rw [UInt16.le_iff_toNat_le, hlen]
      exact hle
    rw [if_neg hle', if_neg hle]
    rfl

namespace ChainState

/-- The chains walk the same way where the entries have moved along with the positions. -/
theorem visits_slide {s s' : ChainState} {k slideLen limit : Nat} (hw : s.base.wSize = 2 ^ k)
    (hw' : s'.base.wSize = s.base.wSize) (hdvd : s.base.wSize ∣ slideLen) (hlimit : slideLen ≤ limit)
    (hprev : ∀ i < s.base.wSize, (s'.prev i).toNat = slideEntry slideLen (s.prev i).toNat)
    (n pos : Nat) :
    s'.visits (limit - slideLen) n (slideEntry slideLen pos) =
      (s.visits limit n pos).map (· - slideLen) := by
  induction n generalizing pos with
  | zero => rfl
  | succ n ih =>
    unfold visits
    by_cases hpos : pos ≤ limit
    · have hle : slideEntry slideLen pos ≤ limit - slideLen := by
        unfold slideEntry
        split <;> omega
      rw [if_pos hpos, if_pos hle, List.map_nil]
    · have hmoved : slideEntry slideLen pos = pos - slideLen := if_pos (by omega)
      have hslot : (pos - slideLen) &&& (s'.base.wSize - 1) = pos &&& (s.base.wSize - 1) := by
        obtain ⟨q, rfl⟩ := hdvd
        rw [hw', hw, Nat.and_two_pow_sub_one_eq_mod, Nat.and_two_pow_sub_one_eq_mod]
        conv_rhs => rw [← Nat.sub_add_cancel (show 2 ^ k * q ≤ pos by rw [← hw]; omega),
          Nat.add_mul_mod_self_left]
      have hin : pos &&& (s.base.wSize - 1) < s.base.wSize := by
        rw [hw, Nat.and_two_pow_sub_one_eq_mod]
        exact Nat.mod_lt _ (Nat.two_pow_pos k)
      rw [if_neg hpos, if_neg (by omega), hmoved, hslot, hprev _ hin, ih, List.map_cons]

/-- What is left of a window that slides by `slideLen`. -/
structure Slid (s s' : ChainState) (slideLen : Nat) : Prop where
  pos : 0 < slideLen
  multiple : s.base.wSize ∣ slideLen
  strstart : s'.base.strstart + slideLen = s.base.strstart
  lookahead : s'.base.lookahead = s.base.lookahead
  /-- The regions of the copy lie within the buffer, and apart. -/
  inside : s.base.strstart + s.base.lookahead ≤ s.base.windowSize
  apart : s.base.strstart + s.base.lookahead - slideLen ≤ slideLen
  bytes : ∀ p, slideLen ≤ p → p < s.base.strstart + s.base.lookahead →
    s'.base.window (p - slideLen) = s.base.window p
  history : min s.base.strstart s.base.maxDist ≤ s'.base.strstart
  head : ¬ s.Hashless → ∀ i < hashSize, (s'.head i).toNat = slideEntry slideLen (s.head i).toNat
  prev : ¬ s.Hashless → s.base.level ≠ 1 →
    ∀ i < s.base.wSize, (s'.prev i).toNat = slideEntry slideLen (s.prev i).toNat
  /-- What a walk visits moves along; a search visits nothing that is lost. -/
  chains : ¬ s.Hashless → s.base.level ≠ 1 → ∀ limit, slideLen ≤ limit → ∀ n pos,
    s'.visits (limit - slideLen) n (slideEntry slideLen pos) =
      (s.visits limit n pos).map (· - slideLen)
  limit : slideLen ≤ s.limit ∧ s'.limit = s.limit - slideLen
  matchStart : (slideLen ≤ s.matchStart ∧ s'.matchStart = s.matchStart - slideLen ∧
      s'.prevLength = s.prevLength) ∨
    (s.matchStart < slideLen ∧ s'.matchStart = 0 ∧ s'.prevLength = 0)
  blockStart : s'.base.blockStart = s.base.blockStart - slideLen
  insert : s'.insert = min s.insert s'.base.strstart

section Slide
variable {s : DeflateState}

/-- The window slides when the end of the data has moved on. -/
theorem slides_end (h : s.Slides) (hfits : s.fillEnd ≤ s.windowSize - minLookahead) :
    s.fillEnd ≤ s.strstart ∧ s.windowSize - minLookahead < s.fillEnd + s.wSize := by
  unfold DeflateState.Slides DeflateState.advanceEnd at h
  split at h
  · next hend => exact ⟨hend, h⟩
  · exact absurd h (Nat.not_lt.mpr hfits)

/-- The slide takes all of the buffer but one window, and the data end with the buffer. -/
theorem slideLen_spec (hs : s.Shape) (hroom : s.Room) (hslides : s.Slides) :
    s.fillEnd ≤ s.strstart ∧ s.fillEnd + minLookahead = s.windowSize ∧ s.wSize ∣ s.slideLen ∧
      s.wSize ≤ s.slideLen ∧ s.slideLen + s.wSize = s.windowSize := by
  have h262 : minLookahead = 262 := rfl
  obtain ⟨hsmall, hlimit, ⟨n, hn, hsize⟩, ⟨q, hq, hfill⟩, hfits⟩ := hs
  obtain ⟨hfit, hbehind, hahead⟩ := hroom
  obtain ⟨hend, hlast⟩ := slides_end hslides (by omega)
  have hle := hbehind hend
  have hqn : q = n := by
    have hlt : n * s.wSize < (q + 1) * s.wSize := by
      rw [Nat.add_mul]
      omega
    have hle : q * s.wSize ≤ n * s.wSize := by omega
    have h1 := Nat.lt_of_mul_lt_mul_right hlt
    have h2 := Nat.le_of_mul_le_mul_right hle (by omega)
    omega
  obtain ⟨j, rfl⟩ := Nat.exists_eq_add_of_le' hn
  subst hqn
  have hslide : s.slideLen = (j + 1) * s.wSize := by
    unfold DeflateState.slideLen
    exact DeflateState.slideLen_eq hsmall (hsize ▸ hlimit)
      (show (j + 2) * s.wSize ≤ s.strstart + minLookahead by omega) (by omega)
  rw [hslide]
  clear hslide
  have hsplit : (j + 2) * s.wSize = (j + 1) * s.wSize + s.wSize := by ring
  have hpos : s.wSize ≤ (j + 1) * s.wSize := Nat.le_mul_of_pos_left _ (Nat.succ_pos j)
  refine ⟨hend, by omega, ⟨j + 1, Nat.mul_comm _ _⟩, hpos, by omega⟩

/-- The window after a slide. -/
theorem slide_fields (s : DeflateState) :
    s.slide.strstart = s.strstart - s.slideLen ∧ s.slide.lookahead = s.lookahead ∧
      s.slide.window = moveDown s.window s.slideLen (s.strstart + s.lookahead - s.slideLen) ∧
      s.slide.wSize = s.wSize ∧ s.slide.blockStart = s.blockStart - s.slideLen ∧
        s.slide.level = s.level := by
  unfold DeflateState.slide DeflateState.slideLen
  refine ⟨?_, ?_, ?_, ?_, ?_, ?_⟩ <;> dsimp only

/-- The end of the data moves on before the window slides, and nothing else does. -/
theorem advanceEnd_fields (s : DeflateState) : s.advanceEnd.slideLen = s.slideLen ∧
    s.advanceEnd.strstart = s.strstart ∧ s.advanceEnd.lookahead = s.lookahead ∧
      s.advanceEnd.window = s.window ∧ s.advanceEnd.wSize = s.wSize ∧
        s.advanceEnd.blockStart = s.blockStart ∧ s.advanceEnd.level = s.level := by
  unfold DeflateState.advanceEnd
  split
  · unfold DeflateState.slideLen DeflateState.maxDist
    refine ⟨?_, ?_, ?_, ?_, ?_, ?_, ?_⟩ <;> dsimp only
  · exact ⟨rfl, rfl, rfl, rfl, rfl, rfl, rfl⟩

end Slide

section Tables
variable {s : ChainState}

/-- The heads slide whenever there are any. -/
theorem slideTables_head (slideLen : Nat) (h : ¬ s.Hashless) :
    (s.slideTables slideLen).head = slideHashChain s.head hashSize (UInt16.ofNat slideLen) := by
  rw [slideTables, if_neg h]
  split <;> rfl

/-- The links slide at the levels that walk them. -/
theorem slideTables_prev (slideLen : Nat) (h : ¬ s.Hashless) (h1 : s.base.level ≠ 1) :
    (s.slideTables slideLen).prev =
      slideHashChain s.prev s.base.wSize (UInt16.ofNat slideLen) := by
  rw [slideTables, if_neg h, if_neg h1]
  rfl

/-- A slide moves the window, the tables and the positions. -/
theorem slide_parts (s : ChainState) : s.slide.base = s.base.slide ∧
    s.slide.head = (s.slideTables s.base.slideLen).head ∧
    s.slide.prev = (s.slideTables s.base.slideLen).prev ∧
    s.slide.matchStart =
      (if s.base.slideLen ≤ s.matchStart then s.matchStart - s.base.slideLen else 0) ∧
    s.slide.prevLength = (if s.base.slideLen ≤ s.matchStart then s.prevLength else 0) ∧
    s.slide.insert = min s.insert s.base.slide.strstart := by
  obtain ⟨h1, h2, h3, h4⟩ := slideTables_rest s.base.slideLen s
  unfold slide
  dsimp only
  rw [h1, h2, h3, h4]
  refine ⟨rfl, rfl, rfl, rfl, rfl, ?_⟩
  split <;> omega

theorem settle_of_slides (h : s.base.Slides) :
    s.settle = ({ s with base := s.base.advanceEnd } : ChainState).slide := by
  rw [settle]
  exact if_pos h

end Tables

/-- The slide, for a window in shape. -/
theorem slid_of_shape {s : ChainState} {k : Nat} (hs : s.base.Shape) (hroom : s.base.Room)
    (hw : s.base.wSize = 2 ^ k) (hslides : s.base.Slides) : Slid s s.settle s.base.slideLen := by
  have h262 : minLookahead = 262 := rfl
  have hsmall := hs.small
  have hlimit := hs.limit
  have hfits := hroom.fits
  obtain ⟨hend, hfill, hdvd, hle, hsum⟩ := slideLen_spec hs hroom hslides
  obtain ⟨a1, a2, a3, a4, a5, a6, a7⟩ := advanceEnd_fields s.base
  obtain ⟨b1, b2, b3, b4, b5, -⟩ := slide_fields s.base.advanceEnd
  rw [a1, a2] at b1
  rw [a3] at b2
  rw [a1, a2, a3, a4] at b3
  rw [a5] at b4
  rw [a1, a6] at b5
  set t : ChainState := { s with base := s.base.advanceEnd } with ht
  have hless : t.Hashless ↔ s.Hashless := by
    unfold Hashless
    rw [ht]
    dsimp only
    rw [a7]
  have hslide := settle_of_slides hslides
  rw [← ht] at hslide
  obtain ⟨c1, c2, c3, c4, c5, c6⟩ := slide_parts t
  have hbase : t.base = s.base.advanceEnd := rfl
  rw [hbase] at c1 c2 c3 c4 c5 c6
  rw [a1] at c2 c3 c4 c5
  rw [b1] at c6
  rw [← hslide] at c1 c2 c3 c4 c5 c6
  rw [← c1] at b1 b2 b3 b4 b5
  have hhead : ¬ s.Hashless → ∀ i < hashSize,
      (s.settle.head i).toNat = slideEntry s.base.slideLen (s.head i).toNat := by
    intro hhash i hi
    rw [c2, slideTables_head _ (fun h => hhash (hless.mp h))]
    exact slideHashChain_eq hi (by omega)
  have hprev : ¬ s.Hashless → s.base.level ≠ 1 → ∀ i < s.base.wSize,
      (s.settle.prev i).toNat = slideEntry s.base.slideLen (s.prev i).toNat := by
    intro hhash h1 i hi
    rw [c3, slideTables_prev _ (fun h => hhash (hless.mp h)) (by rw [hbase, a7]; exact h1), hbase,
      a5]
    exact slideHashChain_eq hi (by omega)
  have hdist : s.base.maxDist = s.base.wSize - minLookahead := by unfold DeflateState.maxDist; rfl
  have hdist' : s.settle.base.maxDist = s.base.wSize - minLookahead := by
    unfold DeflateState.maxDist
    rw [b4]
  have hchains : ¬ s.Hashless → s.base.level ≠ 1 → ∀ limit, s.base.slideLen ≤ limit → ∀ n pos,
      s.settle.visits (limit - s.base.slideLen) n (slideEntry s.base.slideLen pos) =
        (s.visits limit n pos).map (· - s.base.slideLen) := fun hhash h1 limit hlim n pos =>
    visits_slide hw b4 hdvd hlim (hprev hhash h1) n pos
  have hmatch : t.matchStart = s.matchStart ∧ t.prevLength = s.prevLength ∧ t.insert = s.insert :=
    ⟨rfl, rfl, rfl⟩
  rw [hmatch.1] at c4 c5
  rw [hmatch.2.1] at c5
  rw [hmatch.2.2] at c6
  generalize s.base.slideLen = slideLen at *
  constructor
  · omega
  · exact hdvd
  · omega
  · exact b2
  · exact hfits
  · omega
  · intro p hp hlt
    rw [b3, moveDown, if_pos (by omega), Nat.add_sub_cancel' hp]
  · omega
  · exact hhead
  · exact hprev
  · exact hchains
  · unfold limit
    omega
  · by_cases hm : slideLen ≤ s.matchStart
    · left
      exact ⟨hm, c4.trans (if_pos hm), c5.trans (if_pos hm)⟩
    · right
      exact ⟨Nat.lt_of_not_le hm, c4.trans (if_neg hm), c5.trans (if_neg hm)⟩
  · exact b5
  · rw [c6, b1]

end ChainState
end ZlibNg
