import ZlibNg.Bits.Word
import ZlibNg.Deflate.LongestMatch

/-! The positions of a match that are hashed, for every tuning of the number of insertions. -/
namespace ZlibNg

/-- The loop of `insert_knuth_stepped_static`; the index after the last position is not used. -/
def steppedLoop (word : Int → Option Nat) (incFp : Nat) : Nat → Option Nat → Option (List Nat)
  | 0, _ => some []
  | n + 1, idxFp => do
    let idxFp ← idxFp
    let rest ← steppedLoop word incFp n (word ((idxFp : Int) + incFp))
    return (idxFp >>> 16) :: rest

/-- `insert_knuth_stepped_static`: the positions that are hashed, and none where it divides by
zero. `word` computes the fixed-point numbers. -/
def insertKnuthStepped (word : Int → Option Nat) (str count maxInserts : Nat) :
    Option (List Nat) := do
  let inserts := if count < maxInserts then count else maxInserts
  let intervals := sub32 inserts 1
  if intervals = 0 then none
  else do
    let scale ← word ((sub32 count 1 : Int) * 2 ^ 16)
    let scale ← word ((scale : Int) + sub32 intervals 1)
    steppedLoop word (scale / intervals) inserts (word ((str : Int) * 2 ^ 16))

/-- `insert_knuth_spread_static`. -/
def insertKnuthSpread (word : Int → Option Nat) (str count maxInserts : Nat) :
    Option (List Nat) :=
  if maxInserts > 3 then insertKnuthStepped word str count maxInserts
  else some (str :: ((if maxInserts = 3 then [str + (count - 1) / 2] else []) ++
    [str + count - 1]))

/-- `struct match`. -/
structure Match where
  matchStart : Nat
  matchLength : Nat
  strstart : Nat
  orgstart : Nat
  deriving DecidableEq

/-- `insert_match`. -/
def insertMatch (word : Int → Option Nat) (m : Match) (maxInsertCount : Nat) :
    Option (List Nat) :=
  let strstart := m.strstart + 1
  let matchLen := m.matchLength - 1
  let maxLen := 2 * maxInsertCount % 2 ^ 32
  if strstart < m.orgstart then
    let last := strstart + matchLen
    let matchLen := sub32 last m.orgstart
    -- hash only the tail position
    if matchLen = 0 then some [last - 1]
    else if matchLen ≤ maxLen then some (List.range' m.orgstart matchLen)
    else insertKnuthStepped word m.orgstart matchLen maxInsertCount
  else if matchLen ≤ maxLen then some (List.range' strstart matchLen)
  else insertKnuthStepped word strstart matchLen maxInsertCount

/-- `find_best_match`, where `longest_match` returns `length` and stores `start`. -/
def findBestMatch (maxDist : Int) (strstart hashHead start length : Nat) : Match :=
  let m : Match :=
    { matchStart := 0, matchLength := 1, strstart := strstart, orgstart := strstart }
  let dist : Int := strstart - hashHead
  if dist ≤ maxDist ∧ 0 < dist ∧ hashHead ≠ 0 then
    let m := { m with matchStart := start }
    if length < wantMinMatch then m
    else if m.strstart ≤ m.matchStart then m
    else
      let m := { m with matchLength := length }
      let matchDist := m.strstart - m.matchStart
      if matchDist < length then { m with orgstart := m.orgstart + (length - matchDist) } else m
  else m

/-- What `fizzle_matches` makes of the next match when it grows by `need` bytes and perhaps one
more. -/
def fizzleNext (need : Nat) (absorbed : Bool) (next : Match) : Match :=
  { matchStart := next.matchStart - need - absorbed.toNat
    matchLength := next.matchLength + need + absorbed.toNat
    strstart := next.strstart - need - absorbed.toNat
    orgstart := next.orgstart + 1 }

/-- A continuation of a match of the greatest length, at the distance of the match. -/
def contMatch (strstart dist length : Nat) : Match where
  matchStart := strstart - dist
  matchLength := length
  strstart := strstart
  orgstart := if dist < length then strstart + length - dist else strstart

/-- The current matches of `deflate_medium`: those found, and those that `fizzle_matches` has
grown. -/
inductive Inserted : Match → Prop
  | found {maxDist : Int} {strstart hashHead start length : Nat} (hlen : length ≤ stdMaxMatch)
      (hlong : wantMinMatch ≤
        (findBestMatch maxDist strstart hashHead start length).matchLength) :
      Inserted (findBestMatch maxDist strstart hashHead start length)
  | fizzled {maxDist : Int} {strstart hashHead start length need : Nat} {absorbed : Bool}
      (hlen : length ≤ stdMaxMatch)
      (hlong : wantMinMatch ≤
        (findBestMatch maxDist strstart hashHead start length).matchLength)
      (hneed : 1 ≤ need) (hgrow : length + need + absorbed.toNat ≤ stdMaxMatch)
      (hback : need + absorbed.toNat ≤ strstart) :
      Inserted (fizzleNext need absorbed (findBestMatch maxDist strstart hashHead start length))

namespace Match

/-- The end of a match. -/
def stop (m : Match) : Nat := m.strstart + m.matchLength

/-- The positions of a match that are not yet hashed when it is inserted. -/
def count (m : Match) : Nat := m.stop - max (m.strstart + 1) m.orgstart

/-- The first position to be hashed: the tail at least. -/
def first (m : Match) : Nat := min (max (m.strstart + 1) m.orgstart) (m.stop - 1)

end Match

/-- Positions from `str` up to `stop`, both ends among them. -/
structure Covers (str stop : Nat) (hashed : List Nat) : Prop where
  inside : ∀ p ∈ hashed, str ≤ p ∧ p < stop
  first : str ∈ hashed
  last : stop - 1 ∈ hashed

/-- The positions hashed cover those given, with no fixed-point number out of range. -/
def InsertsWell (insert : (Int → Option Nat) → Option (List Nat)) (str stop : Nat) : Prop :=
  ∃ hashed, insert wrap32 = some hashed ∧ insert fit32 = some hashed ∧ Covers str stop hashed

/-- The tunings that break the insertion of `count` positions: none of them inserted, or a division
by `inserts - 1 = 0`. -/
def Degenerate (count maxInserts : Nat) : Prop :=
  (maxInserts = 0 ∧ 1 ≤ count) ∨ (maxInserts = 1 ∧ 3 ≤ count) ∨ (maxInserts = 2 ^ 31 ∧ count = 1)

/-- The matches of `deflate_fast` and `deflate_medium`, with the lookahead from their first byte, and
the continuations of a match of the greatest length. The window has at most `2 ^ 16` bytes. -/
inductive Insertion
  | fast (strstart matchLen lookahead : Nat) (hlong : wantMinMatch ≤ matchLen)
      (hlen : matchLen ≤ stdMaxMatch) (hahead : matchLen ≤ lookahead)
      (hfits : strstart + matchLen ≤ 2 ^ 16)
  | fastContinued (strstart contLen : Nat) (hlong : 8 ≤ contLen) (hlen : contLen ≤ stdMaxMatch)
      (hfits : strstart + contLen ≤ 2 ^ 16)
  | medium (m : Match) (lookahead : Nat) (hm : Inserted m) (hahead : m.matchLength ≤ lookahead)
      (hfits : m.stop ≤ 2 ^ 16)
  | mediumContinued (strstart dist contLen : Nat) (hlong : 8 ≤ contLen)
      (hlen : contLen ≤ stdMaxMatch) (hdist : 1 ≤ dist) (hback : dist ≤ strstart)
      (hfits : strstart + contLen ≤ 2 ^ 16)

namespace Insertion

/-- The positions that are hashed. Near the end of the data `deflate_fast` hashes the last one only,
and `deflate_medium` none. -/
def run (word : Int → Option Nat) (maxInserts : Nat) : Insertion → Option (List Nat)
  | fast strstart matchLen lookahead .. =>
    let lookahead := lookahead - matchLen
    if lookahead ≥ wantMinMatch then
      insertKnuthSpread word (strstart + 1) (matchLen - 1) maxInserts
    else some [strstart + 2 - stdMinMatch + matchLen]
  | fastContinued strstart contLen .. => insertKnuthSpread word strstart contLen maxInserts
  | medium m lookahead .. =>
    if m.matchLength ≥ wantMinMatch ∧ lookahead > m.matchLength + wantMinMatch then
      insertMatch word m maxInserts
    else some []
  | mediumContinued strstart dist contLen .. =>
    insertMatch word (contMatch strstart dist contLen) maxInserts

def first : Insertion → Nat
  | fast strstart .. => strstart + 1
  | fastContinued strstart .. => strstart
  | medium m .. => m.first
  | mediumContinued strstart dist contLen .. => (contMatch strstart dist contLen).first

def stop : Insertion → Nat
  | fast strstart matchLen .. => strstart + matchLen
  | fastContinued strstart contLen .. => strstart + contLen
  | medium m .. => m.stop
  | mediumContinued strstart dist contLen .. => (contMatch strstart dist contLen).stop

/-- An insertion ends, without an overflow of a fixed-point number that is used, and covers its
positions. -/
def Well (i : Insertion) (maxInserts : Nat) : Prop :=
  InsertsWell (fun word => i.run word maxInserts) i.first i.stop

/-- The matches whose positions are not covered: those near the end of the data, and in
`deflate_medium` those with a degenerate tuning. -/
def Misses (maxInserts : Nat) : Insertion → Prop
  | fast _ matchLen lookahead .. => lookahead < matchLen + wantMinMatch
  | fastContinued .. => False
  | medium m lookahead .. =>
    lookahead ≤ m.matchLength + wantMinMatch ∨ Degenerate m.count maxInserts
  | mediumContinued strstart dist contLen .. =>
    Degenerate (contMatch strstart dist contLen).count maxInserts

end Insertion

section Stepped
variable {word : Int → Option Nat}

/-- The positions of the loop while the index fits. -/
theorem steppedLoop_eq (hword : ExactWord word) {inc n x : Nat} (h : x + n * inc < 2 ^ 32) :
    steppedLoop word inc (n + 1) (word x) =
      some ((List.range (n + 1)).map fun i => (x + i * inc) / 2 ^ 16) := by
  induction n generalizing x with
  | zero =>
    rw [hword x (by omega)]
    simp [steppedLoop, Nat.shiftRight_eq_div_pow]
  | succ n ih =>
    have hmul : (n + 1) * inc = n * inc + inc := by ring
    have hstep : ((x : Int) + inc) = (x + inc : Nat) := by push_cast; rfl
    rw [steppedLoop, hword x (by omega), Option.bind_eq_bind, Option.bind_some, hstep,
      ih (by omega), Option.bind_eq_bind, Option.bind_some, List.range_succ_eq_map (n := n + 1),
      List.map_cons, List.map_map]
    simp only [Nat.shiftRight_eq_div_pow, Nat.zero_mul, Nat.add_zero]
    refine congrArg some (congrArg _ (List.map_congr_left fun i _ => ?_))
    have hshift : x + inc + i * inc = x + (i + 1) * inc := by ring
    rw [hshift]
    rfl

/-- The step is rounded up, and by less than one position on the whole way. -/
theorem step_bounds {n v : Nat} (hv : 1 ≤ v) (hn : v ≤ 2 ^ 16) :
    n * 2 ^ 16 ≤ v * ((n * 2 ^ 16 + (v - 1)) / v) ∧
      v * ((n * 2 ^ 16 + (v - 1)) / v) < (n + 1) * 2 ^ 16 := by
  have hdiv := Nat.div_add_mod (n * 2 ^ 16 + (v - 1)) v
  have hmod := Nat.mod_lt (n * 2 ^ 16 + (v - 1)) hv
  constructor <;> omega

/-- The positions of a stepped insertion of `n + 1` positions with `v + 1` insertions. -/
def stepPositions (str n v : Nat) : List Nat :=
  (List.range (v + 1)).map fun i => (str * 2 ^ 16 + i * ((n * 2 ^ 16 + (v - 1)) / v)) / 2 ^ 16

theorem insertKnuthStepped_eq (hword : ExactWord word) {str n v maxInserts : Nat}
    (hv : 1 ≤ v) (hinserts : min (n + 1) maxInserts = v + 1) (hlen : n < stdMaxMatch)
    (hfits : str + (n + 1) ≤ 2 ^ 16) :
    insertKnuthStepped word str (n + 1) maxInserts = some (stepPositions str n v) := by
  have hlen' : n < 258 := hlen
  have hle : v ≤ n := by omega
  have hmin : (if n + 1 < maxInserts then n + 1 else maxInserts) = v + 1 := by
    split <;> omega
  have hsub (k : Nat) (hk : k ≤ n) : sub32 (k + 1) 1 = k := by
    unfold sub32
    omega
  have hpred : sub32 v 1 = v - 1 := by
    unfold sub32
    omega
  have hscale : word ((n : Int) * 2 ^ 16) = some (n * 2 ^ 16) :=
    hword.eq (by push_cast; rfl) (by omega)
  have hround : word (((n * 2 ^ 16 : Nat) : Int) + (v - 1 : Nat)) = some (n * 2 ^ 16 + (v - 1)) :=
    hword.eq (by push_cast; rfl) (by omega)
  have hstart : word ((str : Int) * 2 ^ 16) = word (str * 2 ^ 16 : Nat) := by
    push_cast
    rfl
  have hbound := (step_bounds (n := n) hv (by omega)).2
  unfold insertKnuthStepped
  dsimp only
  rw [hmin, hsub v hle, if_neg (by omega), hsub n le_rfl, hscale, Option.bind_eq_bind,
    Option.bind_some, hpred, hround, Option.bind_some, hstart,
    steppedLoop_eq hword (by omega)]
  rfl

/-- The steps lead from the first position to the last. -/
theorem stepPositions_covers {str n v : Nat} (hv : 1 ≤ v) (hn : v ≤ 2 ^ 16) :
    Covers str (str + (n + 1)) (stepPositions str n v) := by
  obtain ⟨hlow, hhigh⟩ := step_bounds (n := n) hv hn
  unfold stepPositions
  generalize (n * 2 ^ 16 + (v - 1)) / v = inc at *
  refine ⟨?_, ?_, ?_⟩
  · intro p hp
    obtain ⟨i, hi, rfl⟩ := List.mem_map.mp hp
    have hmul : i * inc ≤ v * inc := Nat.mul_le_mul_right _ (by
      have := List.mem_range.mp hi
      omega)
    omega
  · refine List.mem_map.mpr ⟨0, List.mem_range.mpr (by omega), ?_⟩
    omega
  · refine List.mem_map.mpr ⟨v, List.mem_range.mpr (by omega), ?_⟩
    omega

/-- With two insertions at least. -/
theorem insertKnuthStepped_well {str count maxInserts : Nat} (hcount : 2 ≤ count)
    (hmax : 2 ≤ maxInserts) (hlen : count ≤ stdMaxMatch) (hfits : str + count ≤ 2 ^ 16) :
    InsertsWell (fun word => insertKnuthStepped word str count maxInserts) str (str + count) := by
  have hlen' : count ≤ 258 := hlen
  obtain ⟨n, rfl⟩ : ∃ n, count = n + 1 := ⟨count - 1, by omega⟩
  obtain ⟨v, hv, hinserts⟩ : ∃ v, 1 ≤ v ∧ min (n + 1) maxInserts = v + 1 :=
    ⟨min (n + 1) maxInserts - 1, by omega, by omega⟩
  exact ⟨_, insertKnuthStepped_eq wrap32_exact hv hinserts hlen hfits,
    insertKnuthStepped_eq fit32_exact hv hinserts hlen hfits,
    stepPositions_covers hv (by omega)⟩

/-- With one insertion only, it divides by zero. -/
theorem insertKnuthStepped_zero {str count maxInserts : Nat} (h : min count maxInserts = 1) :
    insertKnuthStepped word str count maxInserts = none := by
  have hmin : (if count < maxInserts then count else maxInserts) = 1 := by
    split <;> omega
  unfold insertKnuthStepped
  dsimp only
  rw [hmin]
  exact if_pos rfl

/-- With none, it inserts none. -/
theorem insertKnuthStepped_none {str count : Nat} :
    insertKnuthStepped wrap32 str count 0 = some [] := by
  have hmin : (if count < 0 then count else 0) = 0 := if_neg (by omega)
  unfold insertKnuthStepped
  dsimp only
  rw [hmin]
  rfl

end Stepped

theorem batch_covers {str count : Nat} (h : 1 ≤ count) :
    Covers str (str + count) (List.range' str count) := by
  refine ⟨fun p hp => ?_, ?_, ?_⟩
  · rw [List.mem_range'_1] at hp
    exact hp
  · rw [List.mem_range'_1]
    omega
  · rw [List.mem_range'_1]
    omega

theorem insertKnuthSpread_well {str count : Nat} (maxInserts : Nat) (hcount : 3 ≤ count)
    (hlen : count ≤ stdMaxMatch) (hfits : str + count ≤ 2 ^ 16) :
    InsertsWell (fun word => insertKnuthSpread word str count maxInserts) str (str + count) := by
  unfold insertKnuthSpread
  by_cases hmax : maxInserts > 3
  · simp only [if_pos hmax]
    exact insertKnuthStepped_well (by omega) (by omega) hlen hfits
  · simp only [if_neg hmax]
    refine ⟨_, rfl, rfl, ?_⟩
    split
    · exact ⟨by simp; omega, by simp, by simp⟩
    · exact ⟨by simp; omega, by simp, by simp⟩

/-- What is known of a match that is inserted. -/
structure Match.Fine (m : Match) : Prop where
  long : wantMinMatch ≤ m.matchLength
  short : m.matchLength ≤ stdMaxMatch
  inside : m.orgstart ≤ m.stop

/-- The overlap found begins after the first position of the match, and leaves one. -/
theorem findBestMatch_fine {maxDist : Int} {strstart hashHead start length : Nat}
    (hlong : wantMinMatch ≤ (findBestMatch maxDist strstart hashHead start length).matchLength) :
    (findBestMatch maxDist strstart hashHead start length).matchLength = length ∧
      (findBestMatch maxDist strstart hashHead start length).strstart = strstart ∧
      (findBestMatch maxDist strstart hashHead start length).orgstart < strstart + length := by
  have hwant : wantMinMatch = 4 := rfl
  revert hlong
  unfold findBestMatch
  dsimp only
  split
  · split
    · intro h
      dsimp only at h
      omega
    · split
      · intro h
        dsimp only at h
        omega
      · split
        · intro _
          exact ⟨rfl, rfl, by dsimp only; omega⟩
        · intro _
          exact ⟨rfl, rfl, by dsimp only; omega⟩
  · intro h
    dsimp only at h
    omega

theorem Inserted.fine {m : Match} (h : Inserted m) : m.Fine := by
  have hwant : wantMinMatch = 4 := rfl
  cases h with
  | found hlen hlong =>
    obtain ⟨hlength, hstart, horg⟩ := findBestMatch_fine hlong
    refine ⟨hlong, ?_, ?_⟩
    · rw [hlength]
      exact hlen
    · unfold Match.stop
      omega
  | fizzled hlen hlong hneed hgrow hback =>
    obtain ⟨hlength, hstart, horg⟩ := findBestMatch_fine hlong
    refine ⟨?_, ?_, ?_⟩
    · dsimp only [fizzleNext]
      omega
    · dsimp only [fizzleNext]
      omega
    · dsimp only [fizzleNext, Match.stop]
      omega

theorem contMatch_fine {strstart dist contLen : Nat} (hlong : 8 ≤ contLen)
    (hlen : contLen ≤ stdMaxMatch) (hdist : 1 ≤ dist) : (contMatch strstart dist contLen).Fine := by
  have hwant : wantMinMatch = 4 := rfl
  refine ⟨by dsimp only [contMatch]; omega, hlen, ?_⟩
  dsimp only [contMatch, Match.stop]
  split <;> omega

/-- The three ways of `insert_match`. -/
theorem insertMatch_eq {m : Match} (h : m.Fine) (hfits : m.stop ≤ 2 ^ 16)
    (word : Int → Option Nat) (maxInsertCount : Nat) :
    insertMatch word m maxInsertCount =
      if m.count = 0 then some [m.first]
      else if m.count ≤ 2 * maxInsertCount % 2 ^ 32 then some (List.range' m.first m.count)
      else insertKnuthStepped word m.first m.count maxInsertCount := by
  obtain ⟨hlong, hshort, hinside⟩ := h
  have hwant : wantMinMatch = 4 := rfl
  have hstop : m.stop = m.strstart + 1 + (m.matchLength - 1) := by
    unfold Match.stop
    omega
  unfold insertMatch
  dsimp only
  rw [← hstop]
  by_cases hskip : m.strstart + 1 < m.orgstart
  · have hcount : sub32 m.stop m.orgstart = m.count := by
      have hmax : max (m.strstart + 1) m.orgstart = m.orgstart := by omega
      unfold sub32 Match.count
      omega
    have hfirst (hne : m.count ≠ 0) : m.first = m.orgstart := by
      unfold Match.first
      unfold Match.count at hne
      omega
    rw [if_pos hskip, hcount]
    by_cases hzero : m.count = 0
    · have htail : m.first = m.stop - 1 := by
        unfold Match.first
        unfold Match.count at hzero
        omega
      rw [if_pos hzero, if_pos hzero, htail]
    · rw [if_neg hzero, if_neg hzero, hfirst hzero]
  · have hcount : m.count = m.matchLength - 1 := by
      unfold Match.count
      omega
    have hfirst : m.first = m.strstart + 1 := by
      unfold Match.first
      omega
    have hpos : ¬ m.matchLength - 1 = 0 := by omega
    rw [if_neg hskip, hcount, hfirst, if_neg hpos]

theorem Match.Fine.count_le {m : Match} (h : m.Fine) : m.count < stdMaxMatch := by
  have hstd : stdMaxMatch = 258 := rfl
  obtain ⟨-, hshort, -⟩ := h
  unfold Match.count Match.stop
  omega

theorem Match.first_add {m : Match} (hpos : 1 ≤ m.count) :
    m.first + m.count = m.stop := by
  unfold Match.first
  unfold Match.count at *
  omega

/-- A match is inserted well, exactly if its tuning is not degenerate. -/
theorem insertMatch_well {m : Match} (h : m.Fine) (hfits : m.stop ≤ 2 ^ 16) {maxInserts : Nat}
    (hmax : maxInserts < 2 ^ 32) :
    InsertsWell (fun word => insertMatch word m maxInserts) m.first m.stop ↔
      ¬ Degenerate m.count maxInserts := by
  have hshort : m.count < 258 := h.count_le
  unfold InsertsWell
  simp only [insertMatch_eq h hfits]
  unfold Degenerate
  by_cases hzero : m.count = 0
  · have htail : m.first = m.stop - 1 := by
      unfold Match.first
      unfold Match.count at hzero
      omega
    have hlong : wantMinMatch ≤ m.stop := by
      have := h.long
      unfold Match.stop
      omega
    have hwant : wantMinMatch = 4 := rfl
    simp only [if_pos hzero]
    refine iff_of_true ⟨_, rfl, rfl, ?_, ?_, ?_⟩ (by omega)
    · intro p hp
      rw [List.mem_singleton] at hp
      omega
    · exact List.mem_singleton.mpr rfl
    · exact List.mem_singleton.mpr htail.symm
  · have hend := m.first_add (by omega)
    simp only [if_neg hzero]
    by_cases hbatch : m.count ≤ 2 * maxInserts % 2 ^ 32
    · simp only [if_pos hbatch]
      refine iff_of_true ⟨_, rfl, rfl, ?_⟩ (by omega)
      rw [← hend]
      exact batch_covers (by omega)
    · simp only [if_neg hbatch]
      by_cases hnone : maxInserts = 0
      · refine iff_of_false ?_ (by omega)
        rintro ⟨hashed, hsome, -, hcovers⟩
        have hnil : hashed = [] := by
          rw [hnone, insertKnuthStepped_none] at hsome
          exact (Option.some.inj hsome).symm
        exact List.not_mem_nil (hnil ▸ hcovers.first)
      · by_cases hone : min m.count maxInserts = 1
        · refine iff_of_false ?_ (by omega)
          rintro ⟨hashed, hsome, -, -⟩
          rw [insertKnuthStepped_zero hone] at hsome
          exact Option.some_ne_none _ hsome.symm
        · refine iff_of_true ?_ (by omega)
          rw [← hend]
          exact insertKnuthStepped_well (by omega) (by omega) h.count_le.le (by omega)

/-- Whatever `deflateTune` has set, the insertion of a match covers its positions exactly if enough
data follows it and the tuning is not degenerate. -/
theorem insertion_tuned (s : MatchState) (goodLength maxLazy niceLength maxChain : Int)
    (i : Insertion) :
    i.Well (s.deflateTune goodLength maxLazy niceLength maxChain).maxLazyMatch ↔
      ¬ i.Misses (toUnsigned maxLazy) := by
  have hwant : wantMinMatch = 4 := rfl
  have hmin : stdMinMatch = 3 := rfl
  have hmax : toUnsigned maxLazy < 2 ^ 32 := by
    unfold toUnsigned
    omega
  change i.Well (toUnsigned maxLazy) ↔ _
  unfold Insertion.Well
  cases i with
  | fast strstart matchLen lookahead hlong hlen hahead hfits =>
    simp only [Insertion.run, Insertion.first, Insertion.stop, Insertion.Misses]
    by_cases hmore : lookahead - matchLen ≥ wantMinMatch
    · simp only [if_pos hmore]
      have hwell := @insertKnuthSpread_well (strstart + 1) (matchLen - 1) (toUnsigned maxLazy)
        (by omega) (by omega) (by omega)
      have hstop : strstart + 1 + (matchLen - 1) = strstart + matchLen := by omega
      rw [hstop] at hwell
      exact iff_of_true hwell (by omega)
    · simp only [if_neg hmore]
      refine iff_of_false ?_ (by omega)
      rintro ⟨hashed, hsome, -, hcovers⟩
      cases hsome
      have hfirst := List.mem_singleton.mp hcovers.first
      omega
  | fastContinued strstart contLen hlong hlen hfits =>
    exact iff_of_true (insertKnuthSpread_well _ (by omega) hlen hfits) not_false
  | medium m lookahead hm hahead hfits =>
    simp only [Insertion.run, Insertion.first, Insertion.stop, Insertion.Misses]
    have hlong := hm.fine.long
    by_cases hmore : lookahead > m.matchLength + wantMinMatch
    · simp only [if_pos (And.intro hlong hmore)]
      rw [insertMatch_well hm.fine hfits hmax, not_or]
      exact (and_iff_right (by omega)).symm
    · simp only [if_neg (fun h : _ ∧ _ => hmore h.2)]
      refine iff_of_false ?_ (not_not.mpr (.inl (by omega)))
      rintro ⟨hashed, hsome, -, hcovers⟩
      cases hsome
      exact List.not_mem_nil hcovers.first
  | mediumContinued strstart dist contLen hlong hlen hdist hback hfits =>
    exact insertMatch_well (contMatch_fine hlong hlen hdist) hfits hmax

/-- The first match in data with the period 100. -/
def periodicInsertion : Insertion :=
  .medium (findBestMatch 32506 101 1 1 258) 899 (.found (by decide) (by decide)) (by decide)
    (by decide)

def periodicState : MatchState where
  window i := UInt8.ofNat (i.toNat % 100)
  prev _ := 0
  head _ := 1
  wSize := 32768
  strstart := 101
  lookahead := 899
  prevLength := 0
  matchStart := 0
  maxChainLength := 6
  maxLazyMatch := 12
  goodMatch := 4
  niceMatch := 16
  fits := by decide

/-- With one insertion only, `deflate_medium` divides by zero. -/
theorem insertion_divides :
    periodicInsertion.run wrap32 (periodicState.deflateTune 4 1 16 6).maxLazyMatch = none ∧
      ¬ periodicInsertion.Well (periodicState.deflateTune 4 1 16 6).maxLazyMatch := by
  have hnone :
      periodicInsertion.run wrap32 (periodicState.deflateTune 4 1 16 6).maxLazyMatch = none := by
    decide
  refine ⟨hnone, ?_⟩
  rintro ⟨hashed, hsome, -⟩
  exact Option.some_ne_none _ (hsome.symm.trans hnone)

end ZlibNg
