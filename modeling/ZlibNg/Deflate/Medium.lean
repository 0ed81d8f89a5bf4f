import ZlibNg.Deflate.StepInsert

/-! The loop of `deflate_medium` with `fizzle_matches`. What the hash tables hold is left open: a
search is one by any tables. -/
namespace ZlibNg

/-- The comparison of a range: a masked one of eight bytes where it is small, or `memcmp`. -/
def rangeDiffers (window : Int → UInt8) (match_ orig : Int) (need : Nat) : Bool :=
  if need ≤ 8 then
    (memread8 window match_ ^^^ memread8 window orig) &&& firstBytesMask64 need != 0
  else bytesAt window match_ need != bytesAt window orig need

/-- `fizzle_matches`: the current and the next match. -/
def fizzleMatches (window : Int → UInt8) (current next : Match) (maxDist : Int) : Match × Match :=
  let match_ : Int := next.matchStart + 1 - current.matchLength
  let orig : Int := next.strstart + 1 - current.matchLength
  if window match_ ≠ window orig then (current, next)
  else
    let limit : Int := if maxDist < next.strstart then next.strstart - maxDist else 0
    let need := current.matchLength - 1
    let maxStepsToLimit : Int := next.strstart - limit
    let maxGrowthAllowed : Int := (stdMaxMatch : Int) - next.matchLength
    let maxStepsToHistory : Int := (next.matchStart : Int) - 1
    let steps := min (min (current.matchLength : Int) maxStepsToLimit)
      (min maxGrowthAllowed maxStepsToHistory)
    if steps < need then (current, next)
    else if rangeDiffers window match_ orig need then (current, next)
    else
      let grown := fizzleNext need false next
      if steps = current.matchLength ∧
          window ((grown.matchStart : Int) - 1) = window ((grown.strstart : Int) - 1) then
        ({ current with matchLength := 0 }, fizzleNext need true next)
      else ({ current with matchLength := 1 }, grown)

/-- `max_match_continues`. -/
def maxMatchContinues (compare : Compare256) (window : Int → UInt8) (strstart dist : Nat) : Nat :=
  let scan : Int := strstart
  if memread8 window scan ≠ memread8 window (scan - dist) then 0
  else compare.run window (scan + 2) (scan - dist + 2) + 2

/-- The continuations of a match of the greatest length: what is emitted, the cursor and the
lookahead after it. -/
def continuations (compare : Compare256) (window : Int → UInt8) (dist strstart lookahead : Nat) :
    List Match × Nat × Nat :=
  if _ : minLookahead ≤ lookahead then
    let contLen := maxMatchContinues compare window strstart dist
    if _ : contLen < 8 then ([], strstart, lookahead)
    else
      let contMatch : Match :=
        { matchStart := strstart - dist
          matchLength := contLen
          strstart := strstart
          orgstart := if dist < contLen then strstart + contLen - dist else strstart }
      let r := continuations compare window dist (strstart + contLen) (lookahead - contLen)
      (contMatch :: r.1, r.2)
  else ([], strstart, lookahead)
termination_by lookahead
decreasing_by
  exact Nat.sub_lt (Nat.lt_of_lt_of_le (by decide : 0 < minLookahead) ‹_›)
    (Nat.lt_of_lt_of_le (by decide : 0 < 8) (Nat.le_of_not_lt ‹_›))

/-- `deflate_medium` at the head of its loop. -/
structure MediumState where
  window : Int → UInt8
  wSize : Nat
  strstart : Nat
  lookahead : Nat
  fillEnd : Nat
  /-- `next_match`; there is none where its length is zero. -/
  next : Match
  /-- The data ends inside the window. -/
  fits : strstart + lookahead < 2 ^ 31
  /-- `MAX_DIST` is no negative number. -/
  wide : minLookahead ≤ wSize ∧ wSize < 2 ^ 31

namespace MediumState
variable (s : MediumState)

/-- `MAX_DIST`. -/
def maxDist : Nat := s.wSize - minLookahead

/-- `fill_window`, where there is not enough lookahead: it does what it likes with the data, and a
next match is given up. -/
def Filled (t : MediumState) : Prop :=
  if s.lookahead < minLookahead then t.next.matchLength = 0 ∧ t.wSize = s.wSize else t = s

/-- `find_best_match` with the cursor at `strstart`, by any tables. -/
inductive Best (strstart : Nat) : Match → Prop
  | find (m : MatchState) (compare : Compare256) (hashHead : Nat)
      (hwindow : m.window = s.window) (hsize : m.wSize = s.wSize) (hstart : m.strstart = strstart)
      (hlook : m.lookahead = s.lookahead) (hprev : ∀ i, m.prev i < 2 ^ 32)
      (hhash : hashHead ≠ 0 → wantMinMatch ≤ s.lookahead) :
      Best strstart
        (findBestMatch s.maxDist strstart hashHead (m.longestMatch .plain compare hashHead).matchStart
          (m.longestMatch .plain compare hashHead).length)

/-- `current_match`, where a search at the cursor has found `found`. -/
def current (found : Match) : Match := if 0 < s.next.matchLength then s.next else found

/-- Whether the loop looks ahead. -/
def LooksAhead (current : Match) : Prop :=
  current.matchLength ≠ stdMaxMatch ∧ minLookahead < s.lookahead ∧
    current.strstart + current.matchLength < s.fillEnd

instance (current : Match) : Decidable (s.LooksAhead current) :=
  inferInstanceAs (Decidable (_ ∧ _ ∧ _))

/-- Whether the current match and the one found ahead are passed to `fizzle_matches`. -/
def Fizzles (current ahead : Match) : Prop :=
  s.LooksAhead current ∧ current.matchLength - 1 ≠ 0 ∧ wantMinMatch ≤ ahead.matchLength ∧
    current.matchLength - 1 ≤ ahead.matchStart

instance (current ahead : Match) : Decidable (s.Fizzles current ahead) :=
  inferInstanceAs (Decidable (_ ∧ _ ∧ _ ∧ _))

/-- The current and the next match after the look ahead, which has found `ahead`. -/
def lookAhead (current ahead : Match) : Match × Match :=
  if s.Fizzles current ahead then fizzleMatches s.window current ahead s.maxDist
  else if s.LooksAhead current then (current, ahead)
  else (current, { s.next with matchLength := 0 })

/-- The matches that are emitted in a turn of the loop, a literal as one of length 1, the cursor
and the lookahead after it, and the next match. -/
def turn (compare : Compare256) (found ahead : Match) : (List Match × Nat × Nat) × Match :=
  let (current, next) := s.lookAhead (s.current found) ahead
  let len := current.matchLength
  let strstart := if s.LooksAhead (s.current found) then current.strstart else s.strstart
  if len = 0 then (([], strstart, s.lookahead), next)
  else
    let strstart := strstart + len
    let lookahead := s.lookahead - len
    let (rest, after) :=
      if len = stdMaxMatch then
        continuations compare s.window (current.strstart - current.matchStart) strstart lookahead
      else ([], strstart, lookahead)
    ((current :: rest, after), next)

/-- The state after a turn. -/
structure Turned (compare : Compare256) (found ahead : Match) (t : MediumState) : Prop where
  window : t.window = s.window
  wSize : t.wSize = s.wSize
  fillEnd : t.fillEnd = s.fillEnd
  cursor : (t.strstart, t.lookahead) = (s.turn compare found ahead).1.2
  next : t.next = (s.turn compare found ahead).2

/-- A turn that is not the last: what is filled, and what is found at the cursor and ahead. -/
structure Goes (filled : MediumState) (found ahead : Match) : Prop where
  fills : s.Filled filled
  lookahead : 0 < filled.lookahead
  search : filled.Best filled.strstart found
  ahead : filled.Best ((filled.current found).strstart + (filled.current found).matchLength) ahead

/-- The states at the head of the loop, in any number of calls. -/
inductive Reached : MediumState → Prop
  | call (s : MediumState) (hnext : s.next.matchLength = 0) : Reached s
  | turn {s filled t : MediumState} {found ahead : Match} (h : Reached s)
      (hgo : s.Goes filled found ahead) (compare : Compare256)
      (ht : filled.Turned compare found ahead t) : Reached t

end MediumState
end ZlibNg
