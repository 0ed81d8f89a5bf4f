import ZlibNg.Bits.FirstDiff
import ZlibNg.Deflate.Window

/-! The match finder of match_tpl.h, in its three variants, and `compare256`. Addresses count
from the start of the window. -/
namespace ZlibNg

def wantMinMatch : Nat := 4

/-- `compare256_8_static`, from `len` on: eight bytes at a time. -/
def compare256Bytes (mem : Int → UInt8) (src0 src1 : Int) : Nat → Nat → Nat
  | 0, _ => 256
  | n + 1, len =>
    match (List.range 8).find? fun i => mem (src0 + (len + i : Nat)) != mem (src1 + (len + i : Nat)) with
    | some i => len + i
    | none => compare256Bytes mem src0 src1 n (len + 8)

/-- `compare256_64_static`, from `len` on: two words at a time. -/
def compare256Words (mem : Int → UInt8) (src0 src1 : Int) : Nat → Nat → Nat
  | 0, _ => 256
  | n + 1, len =>
    let diff := memread8 mem (src0 + len) ^^^ memread8 mem (src1 + len)
    if diff ≠ 0 then len + firstDiffByte64 diff
    else
      let diff := memread8 mem (src0 + len + 8) ^^^ memread8 mem (src1 + len + 8)
      if diff ≠ 0 then len + 8 + firstDiffByte64 diff
      else compare256Words mem src0 src1 n (len + 16)

/-- The two forms of `COMPARE256`. -/
inductive Compare256
  | bytes
  | words

def Compare256.run (mem : Int → UInt8) (src0 src1 : Int) : Compare256 → Nat
  | bytes => compare256Bytes mem src0 src1 32 0
  | words => compare256Words mem src0 src1 16 0

/-- `UPDATE_HASH_KNUTH`. -/
def updateHashKnuth (val : Nat) : Nat := (val * 2654435761 % 2 ^ 32) >>> 16

/-- `update_hash_roll`. -/
def updateHashRoll (h : Nat) (val : UInt8) : Nat := (h <<< 5 ^^^ val.toNat) &&& 32767

/-- `longest_match`, `longest_match_slow_knuth` and `longest_match_slow_roll`. -/
inductive MatchKind
  | plain
  | slowKnuth
  | slowRoll
  deriving DecidableEq

/-- What the match finder reads of `deflate_state`, and `deflateTune` sets. -/
structure MatchState where
  window : Int → UInt8
  prev : Nat → Nat
  head : Nat → Nat
  wSize : Nat
  strstart : Nat
  lookahead : Nat
  prevLength : Nat
  matchStart : Nat
  maxChainLength : Nat
  maxLazyMatch : Nat
  goodMatch : Nat
  niceMatch : Nat
  /-- The data ends inside the window. -/
  fits : strstart + lookahead < 2 ^ 32

/-- The variables of a search; `links` counts the links of `prev` followed in a chain. -/
structure Search where
  bestLen : Nat
  curMatch : Nat
  matchOffset : Nat
  matchStart : Nat
  chainLength : Nat
  links : Nat

/-- The length returned, and `match_start`. -/
structure Found where
  length : Nat
  matchStart : Nat
  links : Nat

/-- What is done with a candidate. -/
inductive Test
  | next
  | short (len : Nat)
  | compare
  deriving DecidableEq

/-- How a walk along a chain ends. -/
inductive Walk
  | stop (c : Search)
  | short (c : Search) (len : Nat)
  | compare (c : Search)

inductive Round
  | done (f : Found)
  | again (c : Search)

/-- An `int` taken as an `unsigned`. -/
def toUnsigned (n : Int) : Nat := (n % 2 ^ 32).toNat

namespace MatchState
variable (s : MatchState)

/-- `deflateTune`. -/
def deflateTune (goodLength maxLazy niceLength maxChain : Int) : MatchState :=
  { s with
    goodMatch := toUnsigned goodLength
    maxLazyMatch := toUnsigned maxLazy
    niceMatch := toUnsigned niceLength
    maxChainLength := toUnsigned maxChain }

def maxDist : Nat := sub32 s.wSize minLookahead

def limitBase : Nat := if s.maxDist < s.strstart then s.strstart - s.maxDist else 0

def limit (matchOffset : Nat) : Nat := (s.limitBase + matchOffset) % 2 ^ 32

/-- `prev[pos & wmask]`. -/
def link (pos : Nat) : Nat := s.prev (pos &&& (s.wSize - 1))

def scan (i : Nat) : UInt8 := s.window (s.strstart + i)

/-- The return value `best_len`. -/
def result (c : Search) : Found := ⟨c.bestLen, c.matchStart, c.links⟩

/-- Where a word is read to see whether a candidate is longer than the best match. -/
def offset (bestLen : Nat) : Nat := if 8 ≤ bestLen then bestLen - 7 else 0

/-- The address of a candidate: `mbase_start + cur_match`. -/
def candidate (c : Search) : Int := (c.curMatch : Int) - c.matchOffset

/-- `--chain_length`, of an `unsigned`. -/
def decrement (chainLength : Nat) : Nat := if chainLength = 0 then 2 ^ 32 - 1 else chainLength - 1

/-- The next position in the chain; whether the search goes on. -/
def advance (c : Search) : Bool × Search :=
  let c := { c with chainLength := decrement c.chainLength }
  if c.chainLength = 0 then (false, c)
  else
    let c := { c with curMatch := s.link c.curMatch, links := c.links + 1 }
    (s.limit c.matchOffset < c.curMatch, c)

/-- The tests before `COMPARE256`. -/
def test (c : Search) : Test :=
  let scanStart := memread8 s.window s.strstart
  let candStart := memread8 s.window (candidate c)
  if c.bestLen < 8 then
    if scanStart = candStart then .compare
    else
      let diff := scanStart ^^^ candStart
      if diff &&& firstBytesMask64 (c.bestLen + 1) = 0 then .short (firstDiffByte64 diff) else .next
  else
    let scanEnd := memread8 s.window (s.strstart + offset c.bestLen)
    let candEnd := memread8 s.window (candidate c + offset c.bestLen)
    if candEnd = scanEnd ∧ candStart = scanStart then .compare else .next

/-- A counter that wraps below zero, as the number of steps it allows. -/
def steps (chainLength : Nat) : Nat := if chainLength = 0 then 2 ^ 32 else chainLength

theorem steps_decrement {n : Nat} (h : decrement n ≠ 0) : steps (decrement n) < steps n := by
  unfold steps decrement at *
  split at h
  · next hn => simp [hn]
  · next hn =>
    rw [if_neg hn, if_neg hn, if_neg h]
    omega

theorem advance_steps {c : Search} (h : (s.advance c).1 = true) :
    steps (s.advance c).2.chainLength < steps c.chainLength := by
  unfold advance at h ⊢
  dsimp only at h ⊢
  split
  · next h0 =>
    rw [if_pos h0] at h
    cases h
  · next h0 => exact steps_decrement h0

/-- The loop over the candidates of a chain. -/
def walk (c : Search) : Walk :=
  match s.test c with
  | .short len => .short c len
  | .compare => .compare c
  | .next => if _ : (s.advance c).1 = true then walk (s.advance c).2 else .stop (s.advance c).2
termination_by steps c.chainLength
decreasing_by exact advance_steps s ‹_›

/-- What holds at the end of a walk along which `P` holds. -/
def Walk.Ends (P Q : Search → Prop) : Walk → Prop
  | .stop c => Q c
  | .short c len => P c ∧ s.test c = .short len
  | .compare c => P c ∧ s.test c = .compare

theorem walk_ends {P Q : Search → Prop} (hnext : ∀ c, P c → (s.advance c).1 = true → P (s.advance c).2)
    (hstop : ∀ c, P c → (s.advance c).1 = false → Q (s.advance c).2) (c : Search) (hc : P c) :
    Walk.Ends s P Q (s.walk c) := by
  induction c using walk.induct s with
  | case1 c len htest =>
    rw [walk, htest]
    exact ⟨hc, htest⟩
  | case2 c htest =>
    rw [walk, htest]
    exact ⟨hc, htest⟩
  | case3 c htest hgo ih =>
    rw [walk, htest]
    simp only [hgo, ↓reduceDIte]
    exact ih (hnext c hc hgo)
  | case4 c htest hgo =>
    rw [walk, htest]
    simp only [hgo, Bool.false_eq_true, ↓reduceDIte]
    exact hstop c hc (by simpa using hgo)

/-- `GOTO_NEXT_CHAIN`. -/
def nextChain (c : Search) : Round :=
  if (s.advance c).1 then .again (s.advance c).2 else .done (result (s.advance c).2)

/-- The positions inside a match are looked up for a chain that is more distant. -/
def offsetChain (bound : Nat) (curMatch : Nat) : Option (Nat × Nat) :=
  (List.range bound).foldlM (fun (nextPos, matchOffset) i =>
    let pos := s.link (curMatch + i)
    if pos < nextPos then if pos ≤ s.limit i then none else some (pos, i)
    else some (nextPos, matchOffset)) (curMatch, 0)

/-- `Z_U32_FROM_LE(zng_memread_4(scan + i))`. -/
def scanWord (i : Nat) : Nat := leNat (bytesAt s.window (s.strstart + i) 4)

/-- The offset of the hash at the tail of a match, and the head of its chain. -/
def tailChain (len : Nat) : MatchKind → Nat × Nat
  | .slowRoll =>
    let i := len - (stdMinMatch - 1)
    let hash := updateHashRoll 0 (s.scan i)
    let hash := updateHashRoll hash (s.scan (i + 1))
    let hash := updateHashRoll hash (s.scan (i + 2))
    (i, s.head hash)
  | _ => (len - wantMinMatch, s.head (updateHashKnuth (s.scanWord (len - wantMinMatch))))

/-- The search for a better string offset; nothing if the search ends. -/
def restart (kind : MatchKind) (c : Search) : Option Search := do
  let len := c.bestLen
  let curMatch := sub32 c.curMatch c.matchOffset
  let bound := len - (if kind = .slowRoll then stdMinMatch else wantMinMatch) + 1
  let (nextPos, matchOffset) ← s.offsetChain bound curMatch
  let (tailOffset, pos) := s.tailChain len kind
  if pos < nextPos then
    if pos ≤ s.limit tailOffset then none
    else some { c with curMatch := pos, matchOffset := tailOffset }
  else some { c with curMatch := nextPos, matchOffset := matchOffset }

/-- The length a search starts from. -/
def entryLen : MatchKind → Nat
  | .plain => stdMinMatch - 1
  | _ => if s.prevLength ≠ 0 then s.prevLength else stdMinMatch - 1

def offsetSearch : MatchKind → Bool
  | .plain => false
  | .slowKnuth => stdMinMatch ≤ s.entryLen .slowKnuth
  | .slowRoll => true

/-- A match longer than the best one. -/
def improve (kind : MatchKind) (c : Search) (len : Nat) : Round :=
  let matchStart := sub32 c.curMatch c.matchOffset
  if s.lookahead ≤ len then .done ⟨s.lookahead, matchStart, c.links⟩
  else if s.niceMatch ≤ len then .done ⟨len, matchStart, c.links⟩
  else
    let c := { c with bestLen := len, matchStart := matchStart }
    if s.offsetSearch kind ∧ stdMinMatch < len ∧ (matchStart + len) % 2 ^ 32 < s.strstart then
      match s.restart kind c with
      | none => .done (result c)
      | some c => .again c
    else s.nextChain c

/-- One turn of the outer loop. -/
def round (kind : MatchKind) (compare : Compare256) (c : Search) : Round :=
  if s.strstart ≤ c.curMatch then .done (result c)
  else
    match s.walk c with
    | .stop c => .done (result c)
    | .short c len => s.improve kind c len
    | .compare c =>
      let len := compare.run s.window (s.strstart + 2) (candidate c + 2) + 2
      if c.bestLen < len then s.improve kind c len else s.nextChain c

theorem short_lt {c : Search} {len : Nat} (h : s.test c = .short len) :
    c.bestLen < len ∧
      len = firstDiffByte64 (memread8 s.window s.strstart ^^^ memread8 s.window (candidate c)) := by
  unfold test at h
  dsimp only at h
  split at h
  · next h8 =>
    split at h
    · cases h
    · split at h
      · next hmask =>
        obtain rfl := (Test.short.inj h).symm
        exact ⟨le_firstDiffByte64 hmask (by omega), rfl⟩
      · cases h
  · split at h <;> cases h

theorem advance_bestLen (c : Search) : (s.advance c).2.bestLen = c.bestLen := by
  unfold advance
  dsimp only
  split <;> rfl

/-- A restart changes the position only. -/
theorem restart_keeps {kind : MatchKind} {c c' : Search} (h : s.restart kind c = some c') :
    c'.bestLen = c.bestLen ∧ c'.chainLength = c.chainLength ∧ c'.links = c.links := by
  unfold restart at h
  dsimp only at h
  obtain ⟨⟨nextPos, matchOffset⟩, -, h⟩ := Option.bind_eq_some_iff.mp h
  dsimp only at h
  split at h
  · split at h
    · cases h
    · obtain rfl := Option.some.inj h
      exact ⟨rfl, rfl, rfl⟩
  · obtain rfl := Option.some.inj h
    exact ⟨rfl, rfl, rfl⟩

/-- A round that goes on with the same best match goes on along the chain. -/
structure Onward (c c' : Search) : Prop where
  bestLen : c'.bestLen = c.bestLen
  steps : steps c'.chainLength < steps c.chainLength

theorem nextChain_onward {c c' : Search} (h : s.nextChain c = .again c') : Onward c c' := by
  unfold nextChain at h
  split at h
  · next hgo =>
    obtain rfl := (Round.again.inj h).symm
    exact ⟨s.advance_bestLen c, s.advance_steps hgo⟩
  · cases h

theorem improve_bestLen {kind : MatchKind} {c c' : Search} {len : Nat}
    (h : s.improve kind c len = .again c') : c'.bestLen = len ∧ len < s.lookahead := by
  unfold improve at h
  dsimp only at h
  split at h
  · cases h
  · next hlook =>
    split at h
    · cases h
    · split at h
      · split at h
        · cases h
        · next hrestart =>
          obtain rfl := Round.again.inj h
          exact ⟨(s.restart_keeps hrestart).1, by omega⟩
      · exact ⟨(s.nextChain_onward h).bestLen, by omega⟩

/-- Either the best match gets longer, and stays shorter than the input, or a step of the chain
is used up. -/
theorem round_onward {kind : MatchKind} {compare : Compare256} {c c' : Search}
    (h : s.round kind compare c = .again c') :
    (c.bestLen < c'.bestLen ∧ c'.bestLen < s.lookahead) ∨ Onward c c' := by
  unfold round at h
  split at h
  · cases h
  · have hwalk := walk_ends s
      (P := fun c' => c'.bestLen = c.bestLen ∧ steps c'.chainLength ≤ steps c.chainLength)
      (Q := fun _ => True)
      (fun c' hc' hgo => ⟨(s.advance_bestLen c').trans hc'.1, (s.advance_steps hgo).le.trans hc'.2⟩)
      (fun _ _ _ => trivial) c ⟨rfl, le_rfl⟩
    split at h
    · cases h
    · next c₁ len heq =>
      rw [heq] at hwalk
      obtain ⟨⟨hlen, -⟩, htest⟩ := hwalk
      obtain ⟨hbest, hlook⟩ := s.improve_bestLen h
      have hlt := (s.short_lt htest).1
      exact .inl ⟨by omega, by omega⟩
    · next c₁ heq =>
      rw [heq] at hwalk
      obtain ⟨⟨hlen, hsteps⟩, -⟩ := hwalk
      dsimp only at h
      split at h
      · next hlt =>
        obtain ⟨hbest, hlook⟩ := s.improve_bestLen h
        exact .inl ⟨by omega, by omega⟩
      · have hon := s.nextChain_onward h
        exact .inr ⟨hon.bestLen.trans hlen, hon.steps.trans_le hsteps⟩

/-- The outer loop. -/
def search (kind : MatchKind) (compare : Compare256) (c : Search) : Found :=
  match _ : s.round kind compare c with
  | .done f => f
  | .again c' => search kind compare c'
termination_by (s.lookahead - c.bestLen, steps c.chainLength)
decreasing_by
  rcases s.round_onward ‹_› with ⟨hlt, hlook⟩ | hon
  · exact Prod.Lex.left _ _ (by omega)
  · rw [hon.bestLen]
    exact Prod.Lex.right _ hon.steps

/-- A round ends in a state with `P` or a result with `Q`. -/
def Round.Holds (P : Search → Prop) (Q : Found → Prop) : Round → Prop
  | .done f => Q f
  | .again c => P c

variable {s} in
/-- What every round keeps holds at the end. -/
theorem search_holds {kind : MatchKind} {compare : Compare256} {P : Search → Prop}
    {Q : Found → Prop} (hround : ∀ c, P c → Round.Holds P Q (s.round kind compare c)) (c : Search)
    (hc : P c) : Q (s.search kind compare c) := by
  induction c using search.induct s kind compare with
  | case1 c f heq =>
    have hdone := hround c hc
    rw [heq] at hdone
    rw [search]
    split
    · next heq' =>
      obtain rfl := Round.done.inj (heq.symm.trans heq')
      exact hdone
    · next heq' => cases heq.symm.trans heq'
  | case2 c c' heq ih =>
    have hagain := hround c hc
    rw [heq] at hagain
    rw [search]
    split
    · next heq' => cases heq.symm.trans heq'
    · next heq' =>
      obtain rfl := Round.again.inj (heq.symm.trans heq')
      exact ih hagain

/-- The most distant chain by the strings inside the match there is, and its offset: the rolling
hash. -/
def entryRoll (bestLen curMatch : Nat) : Nat × Nat :=
  let hash := updateHashRoll 0 (s.scan 1)
  let hash := updateHashRoll hash (s.scan 2)
  ((List.range' 3 (bestLen - 2)).foldl (fun (hash, curMatch, matchOffset) i =>
    let hash := updateHashRoll hash (s.scan i)
    let pos := s.head hash
    if pos < curMatch then (hash, pos, i - 2) else (hash, curMatch, matchOffset))
    (hash, curMatch, 0)).2

/-- The same by a hash of four bytes at each offset. -/
def entryKnuth (bestLen curMatch : Nat) : Nat × Nat :=
  (List.range' 1 (bestLen - (wantMinMatch - 1))).foldl (fun (curMatch, matchOffset) i =>
    let pos := s.head (updateHashKnuth (s.scanWord i))
    if pos < curMatch then (pos, i) else (curMatch, matchOffset)) (curMatch, 0)

/-- The number of links that may be followed, and one. -/
def budget (kind : MatchKind) : Nat :=
  if s.goodMatch ≤ s.entryLen kind then s.maxChainLength >>> 2 else s.maxChainLength

/-- `LONGEST_MATCH`. -/
def longestMatch (kind : MatchKind) (compare : Compare256) (curMatch : Nat) : Found :=
  let bestLen := s.entryLen kind
  if kind ≠ .plain ∧ s.lookahead ≤ bestLen then ⟨s.lookahead, s.matchStart, 0⟩
  else
    let c : Search := ⟨bestLen, curMatch, 0, s.matchStart, s.budget kind, 0⟩
    if kind ≠ .plain ∧ stdMinMatch ≤ bestLen then
      let (curMatch, matchOffset) :=
        if kind = .slowRoll then s.entryRoll bestLen curMatch else s.entryKnuth bestLen curMatch
      let c := { c with curMatch := curMatch, matchOffset := matchOffset }
      if curMatch ≤ s.limit matchOffset then result c else s.search kind compare c
    else s.search kind compare c

end MatchState
end ZlibNg
