import ZlibNg.Deflate.Medium
import ZlibNg.Deflate.MatchSpec

/-! `fizzle_matches` keeps the text that two matches cover. The plain match finder is looked at
again, on chains that may lead past the string. -/
namespace ZlibNg

theorem compare256Bytes_le (mem : Int → UInt8) (p q : Int) {n len : Nat} (hn : len + 8 * n = 256) :
    compare256Bytes mem p q n len ≤ 256 := by
  induction n generalizing len with
  | zero => exact le_rfl
  | succ n ih =>
    rw [compare256Bytes]
    split
    · next i hfind =>
      have hi := List.mem_range.mp (List.mem_of_find?_eq_some hfind)
      omega
    · exact ih (by omega)

theorem compare256Words_le (mem : Int → UInt8) (p q : Int) {n len : Nat} (hn : len + 16 * n = 256) :
    compare256Words mem p q n len ≤ 256 := by
  induction n generalizing len with
  | zero => exact le_rfl
  | succ n ih =>
    rw [compare256Words]
    dsimp only
    split
    · have hdiff := firstDiffByte64_le (memread8 mem (p + len) ^^^ memread8 mem (q + len))
      omega
    · split
      · have hdiff := firstDiffByte64_le
          (memread8 mem (p + len + 8) ^^^ memread8 mem (q + len + 8))
        omega
      · exact ih (by omega)

theorem Compare256.run_le (compare : Compare256) (mem : Int → UInt8) (p q : Int) :
    compare.run mem p q ≤ 256 := by
  cases compare with
  | bytes => exact compare256Bytes_le mem p q rfl
  | words => exact compare256Words_le mem p q rfl

namespace MatchState
variable {s : MatchState}

/-- A string that is near enough, before the current one or after it. -/
structure IsNear (s : MatchState) (matchStart len : Nat) : Prop where
  short : len ≤ stdMaxMatch
  pos : 1 ≤ matchStart
  limit : s.limitBase ≤ matchStart
  same : SameBytes s.window matchStart s.strstart len

/-- A candidate of the plain search. -/
structure Plain (s : MatchState) (c : Search) : Prop where
  near : s.Near c
  offset : c.matchOffset = 0
  fits : c.curMatch < 2 ^ 32

/-- What is known of the best length of the plain search, from the length 2 on. -/
def Best (s : MatchState) (bestLen matchStart : Nat) : Prop :=
  bestLen ≤ s.lookahead ∧ (stdMinMatch - 1 < bestLen → s.IsNear matchStart bestLen)

theorem Plain.start {bestLen curMatch matchStart chainLength links : Nat}
    (hbase : s.limitBase ≤ curMatch) (hpos : 0 < curMatch) (hfits : curMatch < 2 ^ 32) :
    s.Plain ⟨bestLen, curMatch, 0, matchStart, chainLength, links⟩ where
  near := ⟨(Nat.add_zero _).le.trans hbase, hpos, Nat.zero_le _⟩
  offset := rfl
  fits := hfits

theorem Plain.advance (hprev : ∀ i, s.prev i < 2 ^ 32) {c : Search} (h : s.Plain c)
    (hgo : (s.advance c).1 = true) : s.Plain (s.advance c).2 := by
  refine ⟨s.advance_near h.near.offset_le hgo, ?_, ?_⟩
  · rw [(s.advance_result c).2.2]
    exact h.offset
  · unfold MatchState.advance at hgo ⊢
    dsimp only at hgo ⊢
    split at hgo
    · cases hgo
    · next h0 =>
      rw [if_neg h0]
      exact hprev _

theorem plain_nextChain (hprev : ∀ i, s.prev i < 2 ^ 32) {c : Search} (h : s.Plain c)
    (hbest : s.Best c.bestLen c.matchStart) :
    Round.Holds (fun c => s.Plain c ∧ s.Best c.bestLen c.matchStart)
      (fun f => s.Best f.length f.matchStart) (s.nextChain c) := by
  obtain ⟨hlen, hstart, -⟩ := s.advance_result c
  have hbest' : s.Best (s.advance c).2.bestLen (s.advance c).2.matchStart := by
    rw [hlen, hstart]
    exact hbest
  unfold nextChain
  split
  · next hgo => exact ⟨h.advance hprev hgo, hbest'⟩
  · exact hbest'

theorem plain_improve (hprev : ∀ i, s.prev i < 2 ^ 32) {c : Search} (h : s.Plain c) {len : Nat}
    (hlen : len ≤ stdMaxMatch) (hsame : SameBytes s.window s.strstart (candidate c) len) :
    Round.Holds (fun c => s.Plain c ∧ s.Best c.bestLen c.matchStart)
      (fun f => s.Best f.length f.matchStart) (s.improve .plain c len) := by
  obtain ⟨hnear, hoffset, hfits⟩ := h
  have hlimit := hnear.limit
  have hpos := hnear.offset
  have hstart : sub32 c.curMatch c.matchOffset = c.curMatch := by
    rw [hoffset, sub32_eq (Nat.zero_le _) hfits]
    rfl
  have hmatch {n : Nat} (hn : n ≤ len) : s.IsNear c.curMatch n := by
    refine ⟨hn.trans hlen, by omega, by omega, ?_⟩
    have hcand : ((c.curMatch : Nat) : Int) = candidate c := by
      unfold candidate
      omega
    rw [hcand]
    exact SameBytes_symm (hsame.mono hn)
  unfold improve
  dsimp only
  rw [hstart]
  split
  · next hlook => exact ⟨le_rfl, fun _ => hmatch hlook⟩
  · next hlook =>
    have hbest : s.Best len c.curMatch := ⟨by omega, fun _ => hmatch le_rfl⟩
    split
    · exact hbest
    · rw [if_neg (fun hsearch => Bool.false_ne_true hsearch.1)]
      exact plain_nextChain hprev ⟨⟨hlimit, hpos, hnear.offset_le⟩, hoffset, hfits⟩ hbest

/-- A round, from any candidate that is near. -/
theorem plain_round (hprev : ∀ i, s.prev i < 2 ^ 32) (compare : Compare256) {c : Search}
    (h : s.Plain c) (hbest : s.Best c.bestLen c.matchStart) :
    Round.Holds (fun c => s.Plain c ∧ s.Best c.bestLen c.matchStart)
      (fun f => s.Best f.length f.matchStart) (s.round .plain compare c) := by
  have h258 : stdMaxMatch = 258 := rfl
  unfold round
  split
  · exact hbest
  · have hwalk := walk_ends s
      (P := fun c' => s.Plain c' ∧ s.Best c'.bestLen c'.matchStart)
      (Q := fun c' => s.Best c'.bestLen c'.matchStart)
      (fun c' hc' hgo => by
        obtain ⟨hlen, hstart, -⟩ := s.advance_result c'
        refine ⟨hc'.1.advance hprev hgo, ?_⟩
        rw [hlen, hstart]
        exact hc'.2)
      (fun c' hc' _ => by
        obtain ⟨hlen, hstart, -⟩ := s.advance_result c'
        rw [hlen, hstart]
        exact hc'.2)
      c ⟨h, hbest⟩
    split
    · next c' heq =>
      rw [heq] at hwalk
      exact hwalk
    · next c' len heq =>
      rw [heq] at hwalk
      have hlen : len ≤ stdMaxMatch := by
        have hdiff := firstDiffByte64_le
          (memread8 s.window s.strstart ^^^ memread8 s.window (candidate c'))
        rw [← (s.short_lt hwalk.2).2] at hdiff
        omega
      exact plain_improve hprev hwalk.1.1 hlen (s.test_short hwalk.2)
    · next c' heq =>
      rw [heq] at hwalk
      obtain ⟨hc', htest⟩ := hwalk
      dsimp only
      split
      · have h2 : SameBytes s.window s.strstart (candidate c') 2 :=
          (s.test_compare htest).mono (by omega)
        have hrest := compare.run_spec s.window ((s.strstart : Int) + 2) (candidate c' + 2)
        have hle := compare.run_le s.window ((s.strstart : Int) + 2) (candidate c' + 2)
        refine plain_improve hprev hc'.1 (by omega) ?_
        rw [Nat.add_comm _ 2]
        exact h2.add hrest
      · exact plain_nextChain hprev hc'.1 hc'.2

/-- The plain variant, whatever `prev` holds. -/
theorem longestMatch_near (hprev : ∀ i, s.prev i < 2 ^ 32) (compare : Compare256) {curMatch : Nat}
    (hpos : 0 < curMatch) (hlt : curMatch < s.strstart) (hdist : s.strstart - curMatch ≤ s.maxDist)
    (hlook : stdMinMatch - 1 ≤ s.lookahead) :
    s.Best (s.longestMatch .plain compare curMatch).length
      (s.longestMatch .plain compare curMatch).matchStart := by
  have hbase : s.limitBase ≤ curMatch := by
    unfold limitBase
    split <;> omega
  have hcur : curMatch < 2 ^ 32 := (hlt.trans_le (Nat.le_add_right _ _)).trans s.fits
  have hstart : s.Plain ⟨stdMinMatch - 1, curMatch, 0, s.matchStart, s.budget .plain, 0⟩ :=
    Plain.start hbase hpos hcur
  have hsearch := search_holds (P := fun c => s.Plain c ∧ s.Best c.bestLen c.matchStart)
    (Q := fun f => s.Best f.length f.matchStart)
    (fun c hc => plain_round hprev compare hc.1 hc.2) _
    ⟨hstart, hlook, fun hgt => absurd hgt (lt_irrefl _)⟩
  have heq : s.longestMatch .plain compare curMatch = s.search .plain compare
      ⟨stdMinMatch - 1, curMatch, 0, s.matchStart, s.budget .plain, 0⟩ := by
    have hplain {p : Prop} : ¬ (MatchKind.plain ≠ .plain ∧ p) := fun h => h.1 rfl
    have hentry : s.entryLen .plain = stdMinMatch - 1 := rfl
    rw [longestMatch, hentry]
    dsimp only
    rw [if_neg hplain, if_neg hplain]
  rw [heq]
  exact hsearch

end MatchState

namespace Match
variable {window : Int → UInt8} {maxDist : Nat} {m : Match}

/-- A match that can be sent: not too long, not too far away, with the same bytes at its source. -/
structure Copy (window : Int → UInt8) (maxDist : Nat) (m : Match) : Prop where
  short : m.matchLength ≤ stdMaxMatch
  pos : 1 ≤ m.matchStart
  lt : m.matchStart < m.strstart
  dist : m.strstart - m.matchStart ≤ maxDist
  same : SameBytes window m.matchStart m.strstart m.matchLength

/-- A literal or a match. -/
def Sendable (window : Int → UInt8) (maxDist : Nat) (m : Match) : Prop :=
  m.matchLength = 1 ∨ (wantMinMatch ≤ m.matchLength ∧ m.Copy window maxDist)

/-- What `fizzle_matches` makes of two matches, the one right after the other. -/
structure Fizzled (window : Int → UInt8) (maxDist : Nat) (current next current' next' : Match) :
    Prop where
  start : current'.strstart = current.strstart
  matchStart : current'.matchStart = current.matchStart
  length : current'.matchLength = current.matchLength ∨ current'.matchLength = 1 ∨
    current'.matchLength = 0
  meets : current'.stop = next'.strstart
  stop : next'.stop = next.stop
  sameDist : next'.strstart - next'.matchStart = next.strstart - next.matchStart
  long : next.matchLength ≤ next'.matchLength
  copy : next'.Copy window maxDist

/-- A match that grows backwards, where the bytes before it are the same. -/
theorem Copy.grow {n : Nat} {absorbed : Bool} (h : m.Copy window maxDist)
    (hpos : n + absorbed.toNat < m.matchStart)
    (hshort : m.matchLength + n + absorbed.toNat ≤ stdMaxMatch)
    (hsame : SameBytes window ((m.matchStart : Int) - (n + absorbed.toNat : Nat))
      ((m.strstart : Int) - (n + absorbed.toNat : Nat)) (n + absorbed.toNat)) :
    (fizzleNext n absorbed m).Copy window maxDist := by
  obtain ⟨-, -, hlt, hdist, hbytes⟩ := h
  have hsub (p : Nat) (hp : n + absorbed.toNat ≤ p) :
      ((p - n - absorbed.toNat : Nat) : Int) = (p : Int) - (n + absorbed.toNat : Nat) := by omega
  refine ⟨hshort, ?_, ?_, ?_, ?_⟩
  · dsimp only [fizzleNext]
    omega
  · dsimp only [fizzleNext]
    omega
  · dsimp only [fizzleNext]
    omega
  · dsimp only [fizzleNext]
    rw [hsub _ (by omega), hsub _ (by omega), Nat.add_assoc, Nat.add_comm m.matchLength]
    refine hsame.add ?_
    rw [Int.sub_add_cancel, Int.sub_add_cancel]
    exact hbytes

theorem rangeDiffers_same {match_ orig : Int} {need : Nat}
    (h : ¬ rangeDiffers window match_ orig need = true) : SameBytes window match_ orig need := by
  unfold rangeDiffers at h
  split at h
  · next hsmall =>
    rw [bne_iff_ne, not_not, firstBytesMask64_eq hsmall, Nat.and_two_pow_sub_one_eq_mod] at h
    exact SameBytes.of_xor h hsmall
  · rw [bne_iff_ne, not_not] at h
    intro i hi
    have hbyte := getElem?_bytesAt window match_ hi
    rw [h, getElem?_bytesAt window orig hi] at hbyte
    exact (Option.some.inj hbyte).symm

/-- What is known of the arguments: the next match begins where the current one ends. -/
theorem fizzleMatches_text {current next : Match} (hlen : 2 ≤ current.matchLength)
    (hmeet : current.stop = next.strstart) (hnext : next.Copy window maxDist) :
    Fizzled window maxDist current next (fizzleMatches window current next maxDist).1
      (fizzleMatches window current next maxDist).2 := by
  have hsame : Fizzled window maxDist current next current next :=
    ⟨rfl, rfl, .inl rfl, hmeet, rfl, rfl, le_rfl, hnext⟩
  unfold fizzleMatches
  extract_lets match_ orig limit need maxStepsToLimit maxGrowthAllowed maxStepsToHistory steps grown
  split
  · exact hsame
  · next hfirst =>
    split
    · exact hsame
    · next hsteps =>
      split
      · exact hsame
      · next hbytes =>
        have hneed : (need : Int) = (current.matchLength : Int) - 1 := by
          dsimp only [need]
          omega
        have hgrowth : steps ≤ maxGrowthAllowed := (min_le_right _ _).trans (min_le_left _ _)
        have hhistory : steps ≤ maxStepsToHistory := (min_le_right _ _).trans (min_le_right _ _)
        have hmatch : match_ = (next.matchStart : Int) - need := by
          dsimp only [match_]
          omega
        have horig : orig = (next.strstart : Int) - need := by
          dsimp only [orig]
          omega
        have hequal := rangeDiffers_same hbytes
        rw [hmatch, horig] at hequal
        split
        · next hextra =>
          obtain ⟨hall, hbyte⟩ := hextra
          have hpast : need < next.matchStart := by
            dsimp only [maxStepsToHistory] at hhistory
            omega
          have hback : SameBytes window ((next.matchStart : Int) - (need + 1 : Nat))
              ((next.strstart : Int) - (need + 1 : Nat)) (need + 1) := by
            rw [Nat.add_comm need]
            have hlast (p : Nat) (hp : need < p) :
                ((p - need : Nat) : Int) - 1 = (p : Int) - (1 + need : Nat) + (0 : Nat) := by omega
            refine SameBytes.add (fun i hi => ?_) ?_
            · obtain rfl : i = 0 := by omega
              rw [← hlast _ hpast, ← hlast _ (by have := hnext.lt; omega)]
              exact hbyte
            · have hrest (p : Int) : p - (1 + need : Nat) + (1 : Nat) = p - need := by omega
              rw [hrest, hrest]
              exact hequal
          refine ⟨rfl, rfl, .inr (.inr rfl), ?_, ?_, ?_, ?_, hnext.grow ?_ ?_ hback⟩
          all_goals dsimp only [fizzleNext, stop, Bool.toNat_true] at *
          all_goals omega
        · refine ⟨rfl, rfl, .inr (.inl rfl), ?_, ?_, ?_, ?_, hnext.grow ?_ ?_ hequal⟩
          all_goals dsimp only [grown, fizzleNext, stop, Bool.toNat_false] at *
          all_goals omega

end Match
end ZlibNg
