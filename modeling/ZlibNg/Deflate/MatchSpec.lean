import ZlibNg.Deflate.LongestMatch

/-! What the match finder returns: a length that is there, at a distance that can be sent. -/
namespace ZlibNg

theorem SameBytes.of_range {mem : Int → UInt8} {p q : Int} {n : Nat}
    (h : (List.range n).find? (fun i : Nat => mem (p + i) != mem (q + i)) = none) :
    SameBytes mem p q n := by
  rw [List.find?_eq_none] at h
  intro i hi
  simpa using h i (List.mem_range.mpr hi)

theorem SameBytes.of_find {mem : Int → UInt8} {p q : Int} {n k : Nat}
    (h : (List.range n).find? (fun i : Nat => mem (p + i) != mem (q + i)) = some k) :
    SameBytes mem p q k := by
  intro i hi
  simpa using (List.find?_range_eq_some.mp h).2.2 i hi

theorem compare256Bytes_spec (mem : Int → UInt8) (p q : Int) (n len : Nat) (hn : len + 8 * n = 256)
    (h : SameBytes mem p q len) : SameBytes mem p q (compare256Bytes mem p q n len) := by
  induction n generalizing len with
  | zero =>
    obtain rfl : len = 256 := by omega
    exact h
  | succ n ih =>
    have hcast (r : Int) (i : Nat) : r + (len + i : Nat) = r + len + i := by push_cast; ring
    rw [compare256Bytes]
    split
    · next i hfind =>
      simp only [hcast] at hfind
      exact h.add (SameBytes.of_find hfind)
    · next hfind =>
      simp only [hcast] at hfind
      exact ih (len + 8) (by omega) (h.add (SameBytes.of_range hfind))

theorem SameBytes.add_firstDiff {mem : Int → UInt8} {p q : Int} {len : Nat}
    (h : SameBytes mem p q len) :
    SameBytes mem p q
      (len + firstDiffByte64 (memread8 mem (p + len) ^^^ memread8 mem (q + len))) := by
  have hdiff := SameBytes.firstDiff mem (p + len) (q + len)
  rw [min_eq_left (firstDiffByte64_le _)] at hdiff
  exact h.add hdiff

theorem SameBytes.add_word {mem : Int → UInt8} {p q : Int} {len : Nat} (h : SameBytes mem p q len)
    (heq : ¬ memread8 mem (p + len) ^^^ memread8 mem (q + len) ≠ 0) :
    SameBytes mem p q (len + 8) := by
  rw [not_not, Nat.xor_eq_zero_iff] at heq
  exact h.add (SameBytes.of_eq heq)

theorem compare256Words_spec (mem : Int → UInt8) (p q : Int) (n len : Nat)
    (hn : len + 16 * n = 256) (h : SameBytes mem p q len) :
    SameBytes mem p q (compare256Words mem p q n len) := by
  induction n generalizing len with
  | zero =>
    obtain rfl : len = 256 := by omega
    exact h
  | succ n ih =>
    have hcast (r : Int) : r + len + 8 = r + (len + 8 : Nat) := by push_cast; ring
    rw [compare256Words]
    dsimp only
    rw [hcast p, hcast q]
    split
    · exact h.add_firstDiff
    · next heq =>
      have h8 := h.add_word heq
      split
      · exact h8.add_firstDiff
      · next heq' => exact ih (len + 16) (by omega) (h8.add_word heq')

theorem Compare256.run_spec (compare : Compare256) (mem : Int → UInt8) (p q : Int) :
    SameBytes mem p q (compare.run mem p q) := by
  have h0 : SameBytes mem p q 0 := fun i hi => absurd hi (Nat.not_lt_zero i)
  cases compare with
  | bytes => exact compare256Bytes_spec mem p q 32 0 rfl h0
  | words => exact compare256Words_spec mem p q 16 0 rfl h0

namespace MatchState
variable (s : MatchState)

/-- A match of length `len`: before the current string, not too far, and the same bytes. -/
structure IsMatch (matchStart len : Nat) : Prop where
  pos : 1 ≤ matchStart
  lt : matchStart < s.strstart
  dist : s.strstart - matchStart ≤ s.maxDist
  same : SameBytes s.window matchStart s.strstart len

/-- A candidate and its offset: the string it stands for starts no earlier than is allowed. -/
structure Near (c : Search) : Prop where
  limit : s.limitBase + c.matchOffset ≤ c.curMatch
  offset : c.matchOffset < c.curMatch
  offset_le : c.matchOffset ≤ s.lookahead

theorem limitBase_le : s.limitBase ≤ s.strstart := by
  unfold limitBase
  split <;> omega

theorem limit_eq {i : Nat} (h : i ≤ s.lookahead) : s.limit i = s.limitBase + i := by
  have hbase := s.limitBase_le
  have hfits := s.fits
  exact Nat.mod_eq_of_lt (by omega)

/-- The positions above a limit. -/
theorem Near.of_limit {c : Search} (hoff : c.matchOffset ≤ s.lookahead)
    (h : ¬ c.curMatch ≤ s.limit c.matchOffset) : s.Near c := by
  rw [s.limit_eq hoff] at h
  exact ⟨by omega, by omega, hoff⟩

theorem sub32_eq {a b : Nat} (h : b ≤ a) (ha : a < 2 ^ 32) : sub32 a b = a - b := by
  unfold sub32
  omega

/-- The string a candidate stands for is in range. -/
theorem Near.isMatch {c : Search} (h : s.Near c) (hlt : c.curMatch < s.strstart) {len : Nat}
    (hsame : SameBytes s.window (candidate c) s.strstart len) :
    s.IsMatch (sub32 c.curMatch c.matchOffset) len := by
  have hfits := s.fits
  have hlimit := h.limit
  have hoffset := h.offset
  have hsub : sub32 c.curMatch c.matchOffset = c.curMatch - c.matchOffset :=
    sub32_eq hoffset.le (by omega)
  have hbase : s.strstart ≤ s.limitBase + s.maxDist := by
    unfold limitBase
    split <;> omega
  refine ⟨by omega, by omega, by omega, ?_⟩
  have hcand : ((sub32 c.curMatch c.matchOffset : Nat) : Int) = candidate c := by
    rw [hsub, candidate]
    omega
  rw [hcand]
  exact hsame

theorem SameBytes_symm {mem : Int → UInt8} {p q : Int} {n : Nat} (h : SameBytes mem p q n) :
    SameBytes mem q p n := fun i hi => (h i hi).symm

/-- The candidates on a walk. -/
structure OnChain (c c' : Search) : Prop where
  near : s.Near c'
  lt : c'.curMatch < s.strstart
  bestLen : c'.bestLen = c.bestLen
  matchStart : c'.matchStart = c.matchStart

theorem advance_result (c : Search) :
    (s.advance c).2.bestLen = c.bestLen ∧ (s.advance c).2.matchStart = c.matchStart ∧
      (s.advance c).2.matchOffset = c.matchOffset := by
  unfold advance
  dsimp only
  split <;> exact ⟨rfl, rfl, rfl⟩

theorem advance_near {c : Search} (hoff : c.matchOffset ≤ s.lookahead)
    (h : (s.advance c).1 = true) : s.Near (s.advance c).2 := by
  have hkeep := (s.advance_result c).2.2
  refine Near.of_limit s (hkeep ▸ hoff) ?_
  unfold advance at h ⊢
  dsimp only at h ⊢
  split at h
  · cases h
  · next h0 =>
    rw [if_neg h0]
    simpa using h

theorem advance_lt (hprev : ∀ i, s.prev i < s.strstart) {c : Search} (h : (s.advance c).1 = true) :
    (s.advance c).2.curMatch < s.strstart := by
  unfold advance at h ⊢
  dsimp only at h ⊢
  split at h
  · cases h
  · next h0 =>
    rw [if_neg h0]
    exact hprev _

theorem test_compare {c : Search} (h : s.test c = .compare) :
    SameBytes s.window s.strstart (candidate c) 8 := by
  unfold test at h
  dsimp only at h
  split at h
  · split at h
    · next heq => exact SameBytes.of_eq heq
    · split at h <;> cases h
  · split at h
    · next heq => exact SameBytes.of_eq heq.2.symm
    · cases h

theorem test_short {c : Search} {len : Nat} (h : s.test c = .short len) :
    SameBytes s.window s.strstart (candidate c) len := by
  have hdiff := SameBytes.firstDiff s.window s.strstart (candidate c)
  rwa [min_eq_left (firstDiffByte64_le _), ← (s.short_lt h).2] at hdiff

/-- What the outer loop keeps, from the length `entry` on. -/
structure Sound (entry : Nat) (c : Search) : Prop where
  near : s.Near c
  le : c.bestLen ≤ s.lookahead
  best : entry < c.bestLen → s.IsMatch c.matchStart c.bestLen

/-- What is returned. -/
structure Ok (entry : Nat) (f : Found) : Prop where
  le : f.length ≤ s.lookahead
  best : entry < f.length → s.IsMatch f.matchStart f.length

theorem Ok.of_result {entry : Nat} {c : Search}
    (h : c.bestLen ≤ s.lookahead ∧ (entry < c.bestLen → s.IsMatch c.matchStart c.bestLen)) :
    s.Ok entry (result c) := ⟨h.1, h.2⟩

theorem nextChain_sound {entry : Nat} {c : Search} (h : s.Sound entry c) :
    Round.Holds (s.Sound entry) (s.Ok entry) (s.nextChain c) := by
  obtain ⟨hbest, hstart, hoff⟩ := s.advance_result c
  unfold nextChain
  split
  · next hgo =>
    exact ⟨s.advance_near h.near.offset_le hgo, hbest ▸ h.le,
      fun hlt => hstart ▸ hbest ▸ h.best (hbest ▸ hlt)⟩
  · exact Ok.of_result s ⟨hbest ▸ h.le, fun hlt => hstart ▸ hbest ▸ h.best (hbest ▸ hlt)⟩

/-- The chains looked up inside a match are nearer than their limit. -/
theorem offsetChain_spec {bound curMatch : Nat} {r : Nat × Nat}
    (h : s.offsetChain bound curMatch = some r) :
    r.1 ≤ curMatch ∧ (r = (curMatch, 0) ∨ r.2 < bound ∧ ¬ r.1 ≤ s.limit r.2) := by
  induction bound generalizing r with
  | zero =>
    obtain rfl : (curMatch, 0) = r := by simpa [offsetChain] using h
    exact ⟨le_rfl, .inl rfl⟩
  | succ n ih =>
    rw [offsetChain, List.range_succ, List.foldlM_append] at h
    obtain ⟨⟨nextPos, matchOffset⟩, hfold, hlast⟩ := Option.bind_eq_some_iff.mp h
    obtain ⟨hle, hcase⟩ := ih hfold
    have hkeep : r = (nextPos, matchOffset) →
        r.1 ≤ curMatch ∧ (r = (curMatch, 0) ∨ r.2 < n + 1 ∧ ¬ r.1 ≤ s.limit r.2) := by
      rintro rfl
      exact ⟨hle, hcase.imp id fun hc => ⟨by omega, hc.2⟩⟩
    simp only [List.foldlM_cons, List.foldlM_nil, bind_pure] at hlast
    split at hlast
    · next hlt =>
      split at hlast
      · cases hlast
      · next hnot =>
        obtain rfl := Option.some.inj hlast
        dsimp only at hle ⊢
        exact ⟨by omega, .inr ⟨by omega, hnot⟩⟩
    · exact hkeep (Option.some.inj hlast).symm

theorem tailChain_le (kind : MatchKind) (len : Nat) : (s.tailChain len kind).1 ≤ len := by
  cases kind <;> exact Nat.sub_le _ _

theorem restart_near {kind : MatchKind} {c c' : Search} (h : s.restart kind c = some c')
    (hc : s.Near c) (hlt : c.curMatch < s.strstart) (hlen : stdMinMatch < c.bestLen)
    (hle : c.bestLen ≤ s.lookahead) :
    s.Near c' ∧ c'.matchStart = c.matchStart := by
  have hstd : stdMinMatch = 3 := rfl
  have hwant : wantMinMatch = 4 := rfl
  have hfits := s.fits
  have hoff := hc.offset
  have hlimit := hc.limit
  unfold restart at h
  dsimp only at h
  obtain ⟨⟨nextPos, matchOffset⟩, hchain, h⟩ := Option.bind_eq_some_iff.mp h
  dsimp only at h
  rw [sub32_eq hoff.le (by omega)] at hchain
  obtain ⟨hnext, hcase⟩ := s.offsetChain_spec hchain
  have htail := s.tailChain_le kind c.bestLen
  split at h
  · split at h
    · cases h
    · next hnot =>
      obtain rfl := Option.some.inj h
      exact ⟨Near.of_limit s (htail.trans hle) hnot, rfl⟩
  · obtain rfl := Option.some.inj h
    refine ⟨?_, rfl⟩
    rcases hcase with heq | ⟨hbound, hnot⟩
    · obtain ⟨rfl, rfl⟩ := Prod.mk.inj heq
      exact ⟨by dsimp only; omega, by dsimp only; omega, Nat.zero_le _⟩
    · refine Near.of_limit s ?_ hnot
      dsimp only at hbound ⊢
      split at hbound <;> omega

theorem improve_sound {entry : Nat} {kind : MatchKind} {c : Search} {len : Nat} (hc : s.Near c)
    (hlt : c.curMatch < s.strstart) (hsame : SameBytes s.window s.strstart (candidate c) len) :
    Round.Holds (s.Sound entry) (s.Ok entry) (s.improve kind c len) := by
  have hmatch {n : Nat} (hn : n ≤ len) : s.IsMatch (sub32 c.curMatch c.matchOffset) n :=
    hc.isMatch s hlt (SameBytes_symm (hsame.mono hn))
  unfold improve
  dsimp only
  split
  · next hlook => exact ⟨le_rfl, fun _ => hmatch hlook⟩
  · next hlook =>
    split
    · exact ⟨by dsimp only; omega, fun _ => hmatch le_rfl⟩
    · have hnear : s.Near { c with bestLen := len, matchStart := sub32 c.curMatch c.matchOffset } :=
        ⟨hc.limit, hc.offset, hc.offset_le⟩
      split
      · next hsearch =>
        split
        · exact Ok.of_result s ⟨by dsimp only; omega, fun _ => hmatch le_rfl⟩
        · next c' hrestart =>
          obtain ⟨hnear', hstart⟩ :=
            s.restart_near hrestart hnear hlt hsearch.2.1 (by dsimp only; omega)
          have hbest := (s.restart_keeps hrestart).1
          exact ⟨hnear', by rw [hbest]; dsimp only; omega,
            fun _ => by rw [hbest, hstart]; exact hmatch le_rfl⟩
      · exact s.nextChain_sound ⟨hnear, by dsimp only; omega, fun _ => hmatch le_rfl⟩

variable {s}

theorem round_sound (hprev : ∀ i, s.prev i < s.strstart) {entry : Nat} (kind : MatchKind)
    (compare : Compare256) {c : Search} (h : s.Sound entry c) :
    Round.Holds (s.Sound entry) (s.Ok entry) (s.round kind compare c) := by
  unfold round
  split
  · exact Ok.of_result s ⟨h.le, h.best⟩
  · next hlt =>
    have hwalk := walk_ends s (P := s.OnChain c)
      (Q := fun c' => c'.bestLen = c.bestLen ∧ c'.matchStart = c.matchStart)
      (fun c' hc' hgo => by
        obtain ⟨hbest, hstart, -⟩ := s.advance_result c'
        exact ⟨s.advance_near hc'.near.offset_le hgo, s.advance_lt hprev hgo,
          hbest.trans hc'.bestLen, hstart.trans hc'.matchStart⟩)
      (fun c' hc' _ => by
        obtain ⟨hbest, hstart, -⟩ := s.advance_result c'
        exact ⟨hbest.trans hc'.bestLen, hstart.trans hc'.matchStart⟩)
      c ⟨h.near, by omega, rfl, rfl⟩
    have hkeep {c' : Search} (hbest : c'.bestLen = c.bestLen) (hstart : c'.matchStart = c.matchStart) :
        c'.bestLen ≤ s.lookahead ∧ (entry < c'.bestLen → s.IsMatch c'.matchStart c'.bestLen) := by
      rw [hbest, hstart]
      exact ⟨h.le, h.best⟩
    split
    · next c' heq =>
      rw [heq] at hwalk
      exact Ok.of_result s (hkeep hwalk.1 hwalk.2)
    · next c' len heq =>
      rw [heq] at hwalk
      exact s.improve_sound hwalk.1.near hwalk.1.lt (s.test_short hwalk.2)
    · next c' heq =>
      rw [heq] at hwalk
      obtain ⟨hc', htest⟩ := hwalk
      obtain ⟨hle, hbest⟩ := hkeep hc'.bestLen hc'.matchStart
      dsimp only
      split
      · -- The first two bytes are not compared again.
        have h2 : SameBytes s.window s.strstart (candidate c') 2 :=
          (s.test_compare htest).mono (by omega)
        have hrest := compare.run_spec s.window ((s.strstart : Int) + 2) (candidate c' + 2)
        rw [Nat.add_comm _ 2]
        exact s.improve_sound hc'.near hc'.lt (h2.add hrest)
      · exact s.nextChain_sound ⟨hc'.near, hle, hbest⟩

theorem search_ok (hprev : ∀ i, s.prev i < s.strstart) {entry : Nat} (kind : MatchKind)
    (compare : Compare256) (c : Search) (h : s.Sound entry c) :
    s.Ok entry (s.search kind compare c) :=
  search_holds (fun _ hc => round_sound hprev kind compare hc) c h

theorem entryRoll_le (s : MatchState) (bestLen curMatch : Nat) :
    (s.entryRoll bestLen curMatch).2 ≤ bestLen := by
  unfold entryRoll
  refine List.foldlRecOn (motive := fun r : Nat × Nat × Nat => r.2.2 ≤ bestLen) _ _
    (Nat.zero_le _) fun r hr i hi => ?_
  obtain ⟨hash, cur, off⟩ := r
  dsimp only at hr ⊢
  rw [List.mem_range'_1] at hi
  split
  · dsimp only
    omega
  · exact hr

theorem entryKnuth_le (s : MatchState) (bestLen curMatch : Nat) :
    (s.entryKnuth bestLen curMatch).2 ≤ bestLen := by
  have hwant : wantMinMatch = 4 := rfl
  unfold entryKnuth
  refine List.foldlRecOn (motive := fun r : Nat × Nat => r.2 ≤ bestLen) _ _
    (Nat.zero_le _) fun r hr i hi => ?_
  obtain ⟨cur, off⟩ := r
  dsimp only at hr ⊢
  rw [List.mem_range'_1] at hi
  split
  · dsimp only
    omega
  · exact hr

/-- From a head of a chain that is near enough, every variant returns the length of a match, or
no more than it was given. -/
theorem longestMatch_ok (s : MatchState) (hprev : ∀ i, s.prev i < s.strstart) (kind : MatchKind)
    (compare : Compare256) {curMatch : Nat} (hpos : 0 < curMatch) (hlt : curMatch < s.strstart)
    (hdist : s.strstart - curMatch ≤ s.maxDist) (hlook : kind = .plain → stdMinMatch - 1 ≤ s.lookahead) :
    s.Ok (s.entryLen kind) (s.longestMatch kind compare curMatch) := by
  have hbase : s.limitBase ≤ curMatch := by
    unfold limitBase
    split <;> omega
  unfold longestMatch
  dsimp only
  split
  · next hfull => exact ⟨le_rfl, fun hgt => absurd hgt (by dsimp only; omega)⟩
  · next hfull =>
    have hle : s.entryLen kind ≤ s.lookahead := by
      by_cases hplain : kind = .plain
      · rw [hplain]
        exact hlook hplain
      · rw [not_and] at hfull
        exact (Nat.lt_of_not_le (hfull hplain)).le
    split
    · -- the search goes on from an earlier string: its best match bounds the offsets
      have hoff : (if kind = .slowRoll then s.entryRoll (s.entryLen kind) curMatch
          else s.entryKnuth (s.entryLen kind) curMatch).2 ≤ s.entryLen kind := by
        split
        · exact s.entryRoll_le _ _
        · exact s.entryKnuth_le _ _
      generalize (if kind = .slowRoll then s.entryRoll (s.entryLen kind) curMatch
          else s.entryKnuth (s.entryLen kind) curMatch) = entry at hoff ⊢
      obtain ⟨entryCur, entryOff⟩ := entry
      dsimp only at hoff ⊢
      split
      · exact Ok.of_result s ⟨hle, fun hgt => absurd hgt (lt_irrefl _)⟩
      · next hnot =>
        have hnear : s.Near ⟨s.entryLen kind, entryCur, entryOff, s.matchStart, s.budget kind, 0⟩ :=
          Near.of_limit s (hoff.trans hle) hnot
        exact search_ok hprev kind compare _ ⟨hnear, hle, fun hgt => absurd hgt (lt_irrefl _)⟩
    · have hnear : s.Near ⟨s.entryLen kind, curMatch, 0, s.matchStart, s.budget kind, 0⟩ :=
        ⟨(Nat.add_zero _).le.trans hbase, hpos, Nat.zero_le _⟩
      exact search_ok hprev kind compare _ ⟨hnear, hle, fun hgt => absurd hgt (lt_irrefl _)⟩

theorem walk_compare {c : Search} (h : s.test c = .compare) : s.walk c = .compare c := by
  rw [walk, h]

theorem walk_stop {c : Search} (h : s.test c = .next) (hend : (s.advance c).1 = false) :
    s.walk c = .stop (s.advance c).2 := by
  rw [walk, h]
  simp only [hend, Bool.false_eq_true, ↓reduceDIte]

theorem search_done {kind : MatchKind} {compare : Compare256} {c : Search} {f : Found}
    (h : s.round kind compare c = .done f) : s.search kind compare c = f := by
  rw [search]
  split
  · next heq => exact Round.done.inj (heq.symm.trans h)
  · next heq => cases heq.symm.trans h

/-- A window of one byte repeated, the head of a chain farther away than is allowed. -/
def farState : MatchState where
  window _ := 0
  prev _ := 0
  head _ := 0
  wSize := 512
  strstart := 1000
  lookahead := 10
  prevLength := 0
  matchStart := 0
  maxChainLength := 4
  maxLazyMatch := 4
  goodMatch := 4
  niceMatch := 8
  fits := by decide

/-- A single byte left, and the string before it. -/
def lastState : MatchState where
  window p := if p < 2 then 0 else 1
  prev _ := 0
  head _ := 0
  wSize := 512
  strstart := 2
  lookahead := 1
  prevLength := 0
  matchStart := 0
  maxChainLength := 4
  maxLazyMatch := 4
  goodMatch := 4
  niceMatch := 8
  fits := by decide

/-- The assertions at the entry are not enough: a head of a chain may be too far away, and the
plain variant starts from a length of two. -/
theorem longestMatch_ok_assertions :
    ¬ (∀ (s : MatchState) (kind : MatchKind) (compare : Compare256) (curMatch : Nat),
      0 < curMatch → curMatch < s.strstart → s.strstart - curMatch ≤ s.maxDist →
      (∀ i, s.prev i < s.strstart) → 4 ≤ s.maxChainLength →
      s.Ok (s.entryLen kind) (s.longestMatch kind compare curMatch)) ∧
    ¬ (∀ (s : MatchState) (kind : MatchKind) (compare : Compare256) (curMatch : Nat),
      0 < curMatch → curMatch < s.strstart → (kind = .plain → stdMinMatch - 1 ≤ s.lookahead) →
      (∀ i, s.prev i < s.strstart) → 4 ≤ s.maxChainLength →
      s.Ok (s.entryLen kind) (s.longestMatch kind compare curMatch)) := by
  constructor
  · intro h
    have hend : lastState.longestMatch .plain .words 1 = ⟨2, 0, 1⟩ := by
      apply search_done
      have hwalk := @walk_stop lastState ⟨2, 1, 0, 0, 4, 0⟩ (by decide) (by decide)
      have hround : lastState.round .plain .words ⟨2, 1, 0, 0, 4, 0⟩ = .done ⟨2, 0, 1⟩ := by
        rw [round, if_neg (by decide), hwalk]
        rfl
      exact hround
    have hok := h lastState .plain .words 1 (by decide) (by decide) (by decide)
      (fun _ => (by decide : 0 < 2)) (by decide)
    rw [hend] at hok
    exact absurd hok.le (by decide)
  · intro h
    have hend : farState.longestMatch .plain .words 1 = ⟨10, 1, 0⟩ := by
      apply search_done
      have hwalk := @walk_compare farState ⟨2, 1, 0, 0, 4, 0⟩ (by decide)
      have hround : farState.round .plain .words ⟨2, 1, 0, 0, 4, 0⟩ = .done ⟨10, 1, 0⟩ := by
        rw [round, if_neg (by decide), hwalk]
        rfl
      exact hround
    have hok := h farState .plain .words 1 (by decide) (by decide) (fun _ => by decide)
      (fun _ => (by decide : 0 < 1000)) (by decide)
    rw [hend] at hok
    exact absurd (hok.best (by decide)).dist (by decide)

/-- A string of four that came five bytes before. -/
def repeatState : MatchState where
  window p := if p % 5 = 1 then 7 else 0
  prev _ := 0
  head _ := 3
  wSize := 512
  strstart := 10
  lookahead := 20
  prevLength := 3
  matchStart := 0
  maxChainLength := 4
  maxLazyMatch := 4
  goodMatch := 4
  niceMatch := 8
  fits := by decide

theorem longestMatch_ok_repeat :
    repeatState.Ok (repeatState.entryLen .slowRoll)
      (repeatState.longestMatch .slowRoll .bytes 5) :=
  longestMatch_ok repeatState (fun _ => (by decide : 0 < 10)) .slowRoll .bytes (by decide)
    (by decide) (by decide) (by decide)

end MatchState
end ZlibNg
