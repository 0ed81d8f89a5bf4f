import ZlibNg.Deflate.Fizzle

/-! What a turn of `deflate_medium` emits, and the next match that it keeps. -/
namespace ZlibNg

/-- The matches cover the positions from `p` to `q`, one right after the other. -/
def Tiles : Nat → List Match → Nat → Prop
  | p, [], q => p = q
  | p, m :: ms, q => m.strstart = p ∧ Tiles m.stop ms q

theorem Tiles.le {p q : Nat} {ms : List Match} (h : Tiles p ms q) : p ≤ q := by
  induction ms generalizing p with
  | nil => exact Nat.le_of_eq h
  | cons m ms ih =>
    obtain ⟨rfl, hrest⟩ := h
    exact (Nat.le_add_right _ _).trans (ih hrest)

theorem Tiles.stop_le {p q : Nat} {ms : List Match} (h : Tiles p ms q) :
    ∀ m ∈ ms, m.stop ≤ q := by
  induction ms generalizing p with
  | nil => exact fun m hm => absurd hm (List.not_mem_nil)
  | cons m ms ih =>
    obtain ⟨rfl, hrest⟩ := h
    intro m' hm'
    obtain rfl | hm' := List.mem_cons.mp hm'
    · exact hrest.le
    · exact ih hrest m' hm'

theorem maxMatchContinues_spec (compare : Compare256) (window : Int → UInt8) (strstart dist : Nat) :
    maxMatchContinues compare window strstart dist ≤ stdMaxMatch ∧
      SameBytes window ((strstart : Int) - dist) strstart
        (maxMatchContinues compare window strstart dist) := by
  unfold maxMatchContinues
  dsimp only
  split
  · exact ⟨Nat.zero_le _, fun i hi => absurd hi (Nat.not_lt_zero i)⟩
  · next hword =>
    have h2 : SameBytes window (strstart : Int) ((strstart : Int) - dist) 2 :=
      (SameBytes.of_eq (not_not.mp hword)).mono (by decide)
    have hrest := compare.run_spec window ((strstart : Int) + 2) ((strstart : Int) - dist + 2)
    have hle := compare.run_le window ((strstart : Int) + 2) ((strstart : Int) - dist + 2)
    refine ⟨Nat.add_le_add_right hle 2, MatchState.SameBytes_symm ?_⟩
    rw [Nat.add_comm _ 2]
    exact h2.add hrest

/-- What is emitted, with the cursor and the lookahead after it. -/
structure Emitted (window : Int → UInt8) (maxDist strstart lookahead : Nat)
    (r : List Match × Nat × Nat) : Prop where
  tiles : Tiles strstart r.1 r.2.1
  total : r.2.1 + r.2.2 = strstart + lookahead
  sendable : ∀ m ∈ r.1, m.Sendable window maxDist

theorem Emitted.nil {window : Int → UInt8} {maxDist strstart lookahead : Nat} :
    Emitted window maxDist strstart lookahead ([], strstart, lookahead) :=
  ⟨rfl, rfl, fun _ hm => absurd hm List.not_mem_nil⟩

theorem Emitted.cons {window : Int → UInt8} {maxDist strstart lookahead : Nat} {m : Match}
    {r : List Match × Nat × Nat} (hstart : m.strstart = strstart) (hle : m.matchLength ≤ lookahead)
    (hm : m.Sendable window maxDist)
    (h : Emitted window maxDist (strstart + m.matchLength) (lookahead - m.matchLength) r) :
    Emitted window maxDist strstart lookahead (m :: r.1, r.2) := by
  obtain ⟨htiles, htotal, hsend⟩ := h
  refine ⟨⟨hstart, ?_⟩, ?_, ?_⟩
  · unfold Match.stop
    rw [hstart]
    exact htiles
  · dsimp only
    omega
  · intro m' hm'
    obtain rfl | hm' := List.mem_cons.mp hm'
    · exact hm
    · exact hsend m' hm'

theorem continuations_emitted {compare : Compare256} {window : Int → UInt8}
    {maxDist dist : Nat} (hpos : 1 ≤ dist) (hmax : dist ≤ maxDist) (strstart lookahead : Nat)
    (hback : dist < strstart) :
    Emitted window maxDist strstart lookahead
      (continuations compare window dist strstart lookahead) := by
  have h262 : minLookahead = 262 := rfl
  have h258 : stdMaxMatch = 258 := rfl
  have hwant : wantMinMatch = 4 := rfl
  induction lookahead using Nat.strong_induction_on generalizing strstart with
  | _ lookahead ih =>
    obtain ⟨hle, hsame⟩ := maxMatchContinues_spec compare window strstart dist
    rw [continuations]
    dsimp only
    generalize maxMatchContinues compare window strstart dist = contLen at hle hsame ⊢
    split
    · next hlook =>
      split
      · exact .nil
      · next hlong =>
        have hrest := ih (lookahead - contLen) (by omega) (strstart + contLen) (by omega)
        have hcast : ((strstart - dist : Nat) : Int) = (strstart : Int) - dist := by omega
        have hcopy (orgstart : Nat) :
            Match.Copy window maxDist ⟨strstart - dist, contLen, strstart, orgstart⟩ := by
          refine ⟨hle, ?_, ?_, ?_, ?_⟩
          · dsimp only
            omega
          · dsimp only
            omega
          · dsimp only
            omega
          · dsimp only
            rw [hcast]
            exact hsame
        have hfits : contLen ≤ lookahead := by omega
        have hwants : wantMinMatch ≤ contLen := by omega
        exact Emitted.cons rfl hfits (.inr ⟨hwants, hcopy _⟩) hrest
    · exact .nil

namespace MediumState
variable {s filled t : MediumState} {found ahead : Match}

/-- What a search returns. -/
structure Result (s : MediumState) (strstart : Nat) (m : Match) : Prop where
  start : m.strstart = strstart
  sendable : m.Sendable s.window s.maxDist
  le : m.matchLength = 1 ∨ m.matchLength ≤ s.lookahead

theorem Best.result {strstart : Nat} {m : Match} (h : s.Best strstart m) : s.Result strstart m := by
  have hwant : wantMinMatch = 4 := rfl
  have hstd : stdMinMatch = 3 := rfl
  cases h with
  | find m compare hashHead hwindow hsize hstart hlook hprev hhash =>
    have hdist : m.maxDist = s.maxDist := by
      have hwide := s.wide
      unfold MatchState.maxDist maxDist
      rw [hsize, MatchState.sub32_eq hwide.1 (by omega)]
    unfold findBestMatch
    dsimp only
    split
    · next hnear =>
      obtain ⟨hle, hpos, hne⟩ := hnear
      have hhead : 0 < hashHead := by omega
      have hbefore : hashHead < m.strstart := by omega
      have henough := hhash hne
      have hbest := MatchState.longestMatch_near hprev compare hhead hbefore (by omega) (by omega)
      generalize m.longestMatch .plain compare hashHead = f at hbest ⊢
      obtain ⟨hlength, hmatch⟩ := hbest
      split
      · exact ⟨rfl, .inl rfl, .inl rfl⟩
      · next hlong =>
        split
        · exact ⟨rfl, .inl rfl, .inl rfl⟩
        · next hbefore =>
          obtain ⟨hshort, hfirst, hlimit, hsame⟩ := hmatch (by omega)
          have hbase : m.strstart ≤ m.limitBase + m.maxDist := by
            unfold MatchState.limitBase
            split <;> omega
          rw [hwindow, hstart] at hsame
          split
          · exact ⟨rfl, .inr ⟨by dsimp only; omega, hshort, hfirst, by dsimp only at *; omega,
              by dsimp only at *; omega, hsame⟩, .inr (hlook ▸ hlength)⟩
          · exact ⟨rfl, .inr ⟨by dsimp only; omega, hshort, hfirst, by dsimp only at *; omega,
              by dsimp only at *; omega, hsame⟩, .inr (hlook ▸ hlength)⟩
    · exact ⟨rfl, .inl rfl, .inl rfl⟩

/-- The next match that is kept begins at the cursor. -/
def Waits (s : MediumState) : Prop :=
  0 < s.next.matchLength → s.next.strstart = s.strstart ∧ s.next.Sendable s.window s.maxDist

/-- A match kept from the turn before is not too long for the data: it is given up where there is
not enough of them. -/
theorem current_result (hs : s.Waits) (hgo : s.Goes filled found ahead) :
    filled.Result filled.strstart (filled.current found) ∧
      (filled.current found).matchLength ≤ filled.lookahead := by
  have h262 : minLookahead = 262 := rfl
  have h258 : stdMaxMatch = 258 := rfl
  have hlook := hgo.lookahead
  have hfills := hgo.fills
  unfold Filled at hfills
  unfold current
  split
  · next hnext =>
    split at hfills
    · omega
    · next hmany =>
      subst hfills
      obtain ⟨hstart, hsend⟩ := hs hnext
      have hle : filled.next.matchLength ≤ filled.lookahead := by
        obtain hone | ⟨-, hcopy⟩ := hsend
        · omega
        · have := hcopy.short
          omega
      exact ⟨⟨hstart, hsend, .inr hle⟩, hle⟩
  · have hresult := hgo.search.result
    refine ⟨hresult, ?_⟩
    obtain hone | hle := hresult.le
    · omega
    · exact hle

/-- The arguments of `fizzle_matches`, and its results. -/
theorem fizzles_text (hgo : s.Goes filled found ahead)
    (hf : filled.Fizzles (filled.current found) ahead) :
    Match.Fizzled filled.window filled.maxDist (filled.current found) ahead
      (fizzleMatches filled.window (filled.current found) ahead filled.maxDist).1
      (fizzleMatches filled.window (filled.current found) ahead filled.maxDist).2 := by
  obtain ⟨-, hlen, hlong, -⟩ := hf
  have hwant : wantMinMatch = 4 := rfl
  have hahead := hgo.ahead.result
  obtain hone | ⟨-, hcopy⟩ := hahead.sendable
  · omega
  · exact Match.fizzleMatches_text (by omega) hahead.start.symm hcopy

/-- What the look ahead leaves. -/
structure Looked (s : MediumState) (current current' next' : Match) : Prop where
  start : current'.strstart = current.strstart
  matchStart : current'.matchStart = current.matchStart
  length : current'.matchLength = current.matchLength ∨ current'.matchLength = 1 ∨
    current'.matchLength = 0
  next : 0 < next'.matchLength → current'.matchLength ≠ stdMaxMatch ∧
    next'.strstart = current'.stop ∧ next'.Sendable s.window s.maxDist

theorem lookAhead_spec (hgo : s.Goes filled found ahead) :
    filled.Looked (filled.current found) (filled.lookAhead (filled.current found) ahead).1
      (filled.lookAhead (filled.current found) ahead).2 := by
  have h258 : stdMaxMatch = 258 := rfl
  have hwant : wantMinMatch = 4 := rfl
  have hahead := hgo.ahead.result
  unfold lookAhead
  split
  · next hf =>
    obtain ⟨hstart, hmatch, hlength, hmeets, -, -, hlong, hcopy⟩ := fizzles_text hgo hf
    have hnot := hf.1.1
    have hahead4 := hf.2.2.1
    refine ⟨hstart, hmatch, hlength, fun _ => ⟨?_, hmeets.symm, .inr ⟨by omega, hcopy⟩⟩⟩
    omega
  · split
    · next hlooks => exact ⟨rfl, rfl, .inl rfl, fun _ => ⟨hlooks.1, hahead.start, hahead.sendable⟩⟩
    · exact ⟨rfl, rfl, .inl rfl, fun h => absurd h (lt_irrefl _)⟩

/-- A turn: what is emitted covers the data from the old cursor to the new one, and the next match
begins there. -/
theorem turn_spec (hs : s.Waits) (hgo : s.Goes filled found ahead) (compare : Compare256) :
    Emitted filled.window filled.maxDist filled.strstart filled.lookahead
        (filled.turn compare found ahead).1 ∧
      (0 < (filled.turn compare found ahead).2.matchLength →
        (filled.turn compare found ahead).2.strstart = (filled.turn compare found ahead).1.2.1 ∧
        (filled.turn compare found ahead).2.Sendable filled.window filled.maxDist) := by
  obtain ⟨hcurrent, hle⟩ := current_result hs hgo
  obtain ⟨hstart, hmatch, hlength, hnext⟩ := lookAhead_spec hgo
  have hlook := hgo.lookahead
  have h258 : stdMaxMatch = 258 := rfl
  have hwant : wantMinMatch = 4 := rfl
  unfold turn
  generalize filled.lookAhead (filled.current found) ahead = looked at hstart hmatch hlength hnext ⊢
  obtain ⟨current, next⟩ := looked
  dsimp only at hstart hmatch hlength hnext ⊢
  have hcursor : (if filled.LooksAhead (filled.current found) then current.strstart
      else filled.strstart) = filled.strstart := by
    rw [hstart, hcurrent.start, ite_self]
  rw [hcursor]
  have hfirst : current.strstart = filled.strstart := hstart.trans hcurrent.start
  split
  · next hzero =>
    refine ⟨.nil, fun hpos => ?_⟩
    obtain ⟨-, hbegin, hsend⟩ := hnext hpos
    unfold Match.stop at hbegin
    exact ⟨by dsimp only; omega, hsend⟩
  · next hne =>
    have hsend : current.Sendable filled.window filled.maxDist := by
      obtain heq | hone | hzero := hlength
      · obtain hone | ⟨hlong, hcopy⟩ := hcurrent.sendable
        · exact .inl (heq.trans hone)
        · refine .inr ⟨heq ▸ hlong, heq ▸ hcopy.short, hmatch ▸ hcopy.pos, ?_, ?_, ?_⟩
          · rw [hstart, hmatch]
            exact hcopy.lt
          · rw [hstart, hmatch]
            exact hcopy.dist
          · rw [hstart, hmatch, heq]
            exact hcopy.same
      · exact .inl hone
      · exact absurd hzero hne
    have hfits : current.matchLength ≤ filled.lookahead := by
      obtain heq | hone | hzero := hlength <;> omega
    have hstop : current.stop = filled.strstart + current.matchLength := by
      rw [← hfirst]
      rfl
    by_cases hfull : current.matchLength = stdMaxMatch
    · simp only [if_pos hfull]
      refine ⟨?_, fun hpos => absurd hfull (hnext hpos).1⟩
      obtain hone | ⟨-, hcopy⟩ := hsend
      · omega
      · have hlt := hcopy.lt
        have hpos := hcopy.pos
        have hdist : 1 ≤ current.strstart - current.matchStart := by omega
        have hrest := @continuations_emitted compare filled.window _ _ hdist hcopy.dist
          (filled.strstart + current.matchLength) (filled.lookahead - current.matchLength) (by omega)
        exact Emitted.cons hfirst hfits (.inr ⟨by omega, hcopy⟩) hrest
    · simp only [if_neg hfull]
      refine ⟨Emitted.cons hfirst hfits hsend .nil, fun hpos => ?_⟩
      obtain ⟨-, hbegin, hnextSend⟩ := hnext hpos
      exact ⟨hbegin.trans hstop, hnextSend⟩

theorem Turned.waits (hs : s.Waits) (hgo : s.Goes filled found ahead) {compare : Compare256}
    (ht : filled.Turned compare found ahead t) : t.Waits := by
  obtain ⟨-, hnext⟩ := turn_spec hs hgo compare
  obtain ⟨hwindow, hsize, -, hcursor, heq⟩ := ht
  have hdist : t.maxDist = filled.maxDist := by
    unfold maxDist
    rw [hsize]
  rw [← heq, ← hcursor] at hnext
  unfold Waits
  rw [hwindow, hdist]
  exact hnext

theorem Reached.waits (h : s.Reached) : s.Waits := by
  induction h with
  | call s hnext => exact fun hpos => absurd hnext hpos.ne'
  | turn _ hgo compare ht ih => exact Turned.waits ih hgo ht

/-- In every run: what `fizzle_matches` is given keeps its text, and what a turn emits lies within
the data, in its order, with the same bytes at every source. -/
theorem deflateMedium_text (h : s.Reached) (hgo : s.Goes filled found ahead)
    (compare : Compare256) :
    (filled.Fizzles (filled.current found) ahead →
      Match.Fizzled filled.window filled.maxDist (filled.current found) ahead
        (fizzleMatches filled.window (filled.current found) ahead filled.maxDist).1
        (fizzleMatches filled.window (filled.current found) ahead filled.maxDist).2) ∧
      Emitted filled.window filled.maxDist filled.strstart filled.lookahead
        (filled.turn compare found ahead).1 ∧
      ∀ m ∈ (filled.turn compare found ahead).1.1, m.stop ≤ filled.strstart + filled.lookahead := by
  obtain ⟨hemitted, -⟩ := turn_spec h.waits hgo compare
  refine ⟨fizzles_text hgo, hemitted, fun m hm => ?_⟩
  have hstop := hemitted.tiles.stop_le m hm
  have htotal := hemitted.total
  omega

/-- At the cursor the text goes on with `abcd`, which is at 1, and behind that with `efghij`, which is
at 10, with `bcd` in front of it there, too. -/
def fizzleState : MediumState where
  window i := [0, 97, 98, 99, 100, 120, 65, 98, 99, 100, 101, 102, 103, 104, 105, 106, 121, 97, 98, 99,
    100, 101, 102, 103, 104, 105, 106].getD i.toNat 0
  wSize := 512
  strstart := 17
  lookahead := 300
  fillEnd := 762
  next := ⟨0, 0, 0, 0⟩
  fits := by decide
  wide := by decide

/-- A search in the text that ends with four bytes or more. -/
def fizzleSearch (strstart : Nat) (hfits : strstart + 300 < 2 ^ 32) : MatchState where
  window := fizzleState.window
  prev _ := 0
  head _ := 0
  wSize := 512
  strstart := strstart
  lookahead := 300
  prevLength := 0
  matchStart := 0
  maxChainLength := 16
  maxLazyMatch := 16
  goodMatch := 8
  niceMatch := 4
  fits := hfits

/-- A first string with less than eight bytes in common is the match. -/
theorem fizzleSearch_best {strstart hashHead len : Nat} (hfits : strstart + 300 < 2 ^ 32)
    (hbefore : hashHead < strstart) (hlong : 4 ≤ len) (hshort : len < 300)
    (htest : (fizzleSearch strstart hfits).test ⟨2, hashHead, 0, 0, 16, 0⟩ = .short len) :
    fizzleState.Best strstart (findBestMatch fizzleState.maxDist strstart hashHead hashHead len) := by
  have hround : (fizzleSearch strstart hfits).round .plain .bytes ⟨2, hashHead, 0, 0, 16, 0⟩ =
      .done ⟨len, hashHead, 0⟩ := by
    have hsub : sub32 hashHead 0 = hashHead := MatchState.sub32_eq (Nat.zero_le _) (by omega)
    rw [MatchState.round, if_neg
      (show ¬(fizzleSearch strstart hfits).strstart ≤ hashHead from Nat.not_le_of_lt hbefore),
      MatchState.walk, htest]
    dsimp only [MatchState.improve]
    rw [hsub, if_neg (show ¬(fizzleSearch strstart hfits).lookahead ≤ len from Nat.not_le_of_lt hshort),
      if_pos (show (fizzleSearch strstart hfits).niceMatch ≤ len from hlong)]
  have hend : (fizzleSearch strstart hfits).longestMatch .plain .bytes hashHead =
      ⟨len, hashHead, 0⟩ := MatchState.search_done hround
  have hbest := @Best.find fizzleState strstart (fizzleSearch strstart hfits) .bytes hashHead rfl rfl rfl
    rfl (fun _ => Nat.two_pow_pos 32) fun _ => show 4 ≤ 300 by decide
  rw [hend] at hbest
  exact hbest

theorem fizzleState_goes : fizzleState.Goes fizzleState ⟨1, 4, 17, 17⟩ ⟨10, 6, 21, 21⟩ where
  fills := by
    unfold Filled
    rw [if_neg (by decide)]
  lookahead := by decide
  search := by
    have hfound : findBestMatch fizzleState.maxDist 17 1 1 4 = ⟨1, 4, 17, 17⟩ := by decide
    have hbest : fizzleState.Best 17 (findBestMatch fizzleState.maxDist 17 1 1 4) :=
      fizzleSearch_best (by decide) (by decide) (by decide) (by decide) (by decide +kernel)
    rwa [hfound] at hbest
  ahead := by
    have hfound : findBestMatch fizzleState.maxDist 21 10 10 6 = ⟨10, 6, 21, 21⟩ := by decide
    have hbest : fizzleState.Best 21 (findBestMatch fizzleState.maxDist 21 10 10 6) :=
      fizzleSearch_best (by decide) (by decide) (by decide) (by decide) (by decide +kernel)
    rwa [hfound] at hbest

/-- The match of four is left with a literal, and the one behind it has nine bytes. -/
theorem deflateMedium_text_fizzle :
    fizzleState.Fizzles (fizzleState.current ⟨1, 4, 17, 17⟩) ⟨10, 6, 21, 21⟩ ∧
      fizzleState.turn .bytes ⟨1, 4, 17, 17⟩ ⟨10, 6, 21, 21⟩ =
        (([⟨1, 1, 17, 17⟩], 18, 299), ⟨7, 9, 18, 22⟩) ∧
      Match.Fizzled fizzleState.window fizzleState.maxDist ⟨1, 4, 17, 17⟩ ⟨10, 6, 21, 21⟩
        ⟨1, 1, 17, 17⟩ ⟨7, 9, 18, 22⟩ ∧
      Emitted fizzleState.window fizzleState.maxDist 17 300 ([⟨1, 1, 17, 17⟩], 18, 299) := by
  have hfizzles : fizzleState.Fizzles (fizzleState.current ⟨1, 4, 17, 17⟩) ⟨10, 6, 21, 21⟩ := by
    decide
  have hturn : fizzleState.turn .bytes ⟨1, 4, 17, 17⟩ ⟨10, 6, 21, 21⟩ =
      (([⟨1, 1, 17, 17⟩], 18, 299), ⟨7, 9, 18, 22⟩) := by decide +kernel
  have hgrown : fizzleMatches fizzleState.window (fizzleState.current ⟨1, 4, 17, 17⟩)
      ⟨10, 6, 21, 21⟩ fizzleState.maxDist = (⟨1, 1, 17, 17⟩, ⟨7, 9, 18, 22⟩) := by decide +kernel
  obtain ⟨hfizzled, hemitted, -⟩ := deflateMedium_text (.call _ rfl) fizzleState_goes .bytes
  rw [hgrown] at hfizzled
  rw [hturn] at hemitted
  exact ⟨hfizzles, hturn, hfizzled hfizzles, hemitted⟩

end MediumState
end ZlibNg
