import ZlibNg.Deflate.MatchSpec

/-! The number of links of a hash chain that a search follows. -/
namespace ZlibNg
namespace MatchState

/-- The links followed and those still allowed, the budget being `b`. -/
structure Within (b : Nat) (c : Search) : Prop where
  pos : 1 ≤ c.chainLength
  le : c.links + c.chainLength ≤ b

theorem advance_within (s : MatchState) {b : Nat} {c : Search} (h : Within b c) :
    ((s.advance c).1 = true → Within b (s.advance c).2) ∧ (s.advance c).2.links ≤ b := by
  have hpos := h.pos
  have hle := h.le
  have hdecr : decrement c.chainLength = c.chainLength - 1 := if_neg (by omega)
  unfold advance
  dsimp only
  split
  · exact ⟨fun hgo => absurd hgo Bool.false_ne_true, by dsimp only; omega⟩
  · next h0 =>
    rw [hdecr] at h0 ⊢
    exact ⟨fun _ => ⟨by dsimp only; omega, by dsimp only; omega⟩, by dsimp only; omega⟩

theorem nextChain_within (s : MatchState) {b : Nat} {c : Search} (h : Within b c) :
    Round.Holds (Within b) (fun f => f.links ≤ b) (s.nextChain c) := by
  obtain ⟨hgo, hle⟩ := s.advance_within h
  unfold nextChain
  split
  · next hnext => exact hgo hnext
  · exact hle

theorem improve_within (s : MatchState) {b : Nat} {kind : MatchKind} {c : Search} {len : Nat}
    (h : Within b c) : Round.Holds (Within b) (fun f => f.links ≤ b) (s.improve kind c len) := by
  have hpos := h.pos
  have hle := h.le
  have hlinks : c.links ≤ b := by omega
  unfold improve
  dsimp only
  split
  · exact hlinks
  · split
    · exact hlinks
    · split
      · split
        · exact hlinks
        · next c' hrestart =>
          obtain ⟨-, hchain, hlinks'⟩ := s.restart_keeps hrestart
          exact ⟨hchain ▸ hpos, by rw [hchain, hlinks']; exact hle⟩
      · exact s.nextChain_within ⟨hpos, hle⟩

theorem round_within (s : MatchState) {b : Nat} (kind : MatchKind) (compare : Compare256)
    {c : Search} (h : Within b c) :
    Round.Holds (Within b) (fun f => f.links ≤ b) (s.round kind compare c) := by
  have hpos := h.pos
  have hle := h.le
  unfold round
  split
  · exact (by omega : c.links ≤ b)
  · have hwalk := walk_ends s (P := Within b) (Q := fun c' => c'.links ≤ b)
      (fun c' hc' hgo => (s.advance_within hc').1 hgo) (fun c' hc' _ => (s.advance_within hc').2) c h
    split
    · next c' heq =>
      rw [heq] at hwalk
      exact hwalk
    · next c' len heq =>
      rw [heq] at hwalk
      exact s.improve_within hwalk.1
    · next c' heq =>
      rw [heq] at hwalk
      dsimp only
      split
      · exact s.improve_within hwalk.1
      · exact s.nextChain_within hwalk.1

/-- A search that may look at one candidate at least stays within its budget. -/
theorem links_le_budget (s : MatchState) (kind : MatchKind) (compare : Compare256)
    (curMatch : Nat) (h : s.budget kind ≠ 0) :
    (s.longestMatch kind compare curMatch).links ≤ s.budget kind := by
  have hpos : 1 ≤ s.budget kind := by omega
  have hsearch (bestLen cur off ms : Nat) :
      (s.search kind compare ⟨bestLen, cur, off, ms, s.budget kind, 0⟩).links ≤ s.budget kind :=
    search_holds (Q := fun f => f.links ≤ s.budget kind)
      (fun _ hc => s.round_within kind compare hc) _ ⟨hpos, (Nat.zero_add _).le⟩
  unfold longestMatch
  dsimp only
  split
  · exact Nat.zero_le _
  · generalize (if kind = .slowRoll then s.entryRoll (s.entryLen kind) curMatch
      else s.entryKnuth (s.entryLen kind) curMatch) = entry
    split
    · split
      · exact Nat.zero_le _
      · exact hsearch _ _ _ _
    · exact hsearch _ _ _ _

theorem budget_le (s : MatchState) (kind : MatchKind) : s.budget kind ≤ s.maxChainLength := by
  unfold budget
  split
  · rw [Nat.shiftRight_eq_div_pow]
    exact Nat.div_le_self _ _
  · exact le_rfl

def stuckWindow (p : Int) : UInt8 := if p < 6 then 0 else 1

/-- Nothing before the current string is like it, and the chain stays at one position. -/
def stuckState (prevLength : Nat) (h : prevLength < 2 ^ 16) : MatchState where
  window := stuckWindow
  prev _ := 5
  head _ := 5
  wSize := 32768
  strstart := 6
  lookahead := prevLength + 4
  prevLength := prevLength
  matchStart := 0
  maxChainLength := 0
  maxLazyMatch := 0
  goodMatch := 0
  niceMatch := 0
  fits := by omega

section Stuck
variable (s : MatchState)

/-- A candidate that is no match, and whose link leads back to it. -/
structure Stuck (c : Search) : Prop where
  test : s.test c = .next
  link : s.link c.curMatch = c.curMatch
  limit : s.limit c.matchOffset < c.curMatch

theorem advance_stuck {c : Search} (hlink : s.link c.curMatch = c.curMatch)
    (hlimit : s.limit c.matchOffset < c.curMatch) :
    s.advance c = if decrement c.chainLength = 0 then (false, { c with chainLength := 0 })
      else (true, { c with chainLength := decrement c.chainLength, links := c.links + 1 }) := by
  unfold advance
  dsimp only
  split
  · next h0 => rw [h0]
  · rw [hlink, decide_eq_true hlimit]

/-- A stuck walk uses up what is left of its budget. -/
theorem walk_stuck {bestLen cur off ms : Nat}
    (h : ∀ n l, Stuck s ⟨bestLen, cur, off, ms, n, l⟩) (n l : Nat) (hn : n ≠ 0) :
    s.walk ⟨bestLen, cur, off, ms, n, l⟩ = .stop ⟨bestLen, cur, off, ms, 0, l + (n - 1)⟩ := by
  induction n generalizing l with
  | zero => exact absurd rfl hn
  | succ n ih =>
    have hs := h (n + 1) l
    have hadv := s.advance_stuck hs.link hs.limit
    have hdecr : decrement (n + 1) = n := by
      rw [decrement, if_neg (Nat.succ_ne_zero n), Nat.add_sub_cancel]
    dsimp only at hadv
    rw [hdecr] at hadv
    rw [walk, hs.test]
    by_cases h0 : n = 0
    · subst h0
      rw [if_pos rfl] at hadv
      simp only [hadv, Bool.false_eq_true, ↓reduceDIte, Nat.add_sub_cancel, Nat.add_zero]
    · rw [if_neg h0] at hadv
      simp only [hadv, ↓reduceDIte, ih (l + 1) h0]
      congr 2
      omega

/-- A walk without a budget follows a link for every value of the counter. -/
theorem walk_stuck_zero {bestLen cur off ms : Nat}
    (h : ∀ n l, Stuck s ⟨bestLen, cur, off, ms, n, l⟩) :
    s.walk ⟨bestLen, cur, off, ms, 0, 0⟩ = .stop ⟨bestLen, cur, off, ms, 0, 2 ^ 32 - 1⟩ := by
  have hs := h 0 0
  have hadv := s.advance_stuck hs.link hs.limit
  have hdecr : decrement 0 = 2 ^ 32 - 1 := rfl
  dsimp only at hadv
  rw [hdecr, if_neg (by decide)] at hadv
  rw [walk, hs.test]
  simp only [hadv, ↓reduceDIte]
  rw [s.walk_stuck h _ _ (by decide)]
  rfl

end Stuck

theorem stuck_test (s : MatchState) (hwindow : s.window = stuckWindow) (hstart : s.strstart = 6)
    (bestLen ms n l : Nat) : s.test ⟨bestLen, 5, 0, ms, n, l⟩ = .next := by
  have hscan : memread8 s.window s.strstart = 72340172838076673 := by
    rw [hwindow, hstart]
    decide
  have hcand : memread8 s.window (candidate ⟨bestLen, 5, 0, ms, n, l⟩) = 72340172838076672 := by
    have hfive : candidate ⟨bestLen, 5, 0, ms, n, l⟩ = 5 := rfl
    rw [hwindow, hfive]
    decide
  have hmask : ∀ b < 8, ¬ (72340172838076673 ^^^ 72340172838076672) &&& firstBytesMask64 (b + 1) = 0 := by
    decide
  unfold test
  dsimp only
  rw [hscan, hcand]
  split
  · next h8 => rw [if_neg (by decide), if_neg (hmask _ h8)]
  · rw [if_neg fun hboth => absurd hboth.2 (by decide)]

/-- A head that is no farther away than the current position changes nothing. -/
theorem entry_stuck (s : MatchState) (hhead : s.head = fun _ => 5) (kind : MatchKind) (bestLen : Nat) :
    (if kind = .slowRoll then s.entryRoll bestLen 5 else s.entryKnuth bestLen 5) = (5, 0) := by
  split
  · unfold entryRoll
    refine List.foldlRecOn (motive := fun r : Nat × Nat × Nat => r.2 = (5, 0)) _ _ rfl
      fun r hr i _ => ?_
    obtain ⟨hash, cur, off⟩ := r
    obtain ⟨rfl, rfl⟩ := Prod.mk.inj hr
    simp [hhead]
  · unfold entryKnuth
    refine List.foldlRecOn (motive := fun r : Nat × Nat => r = (5, 0)) _ _ rfl
      fun r hr i _ => ?_
    obtain ⟨cur, off⟩ := r
    obtain ⟨rfl, rfl⟩ := Prod.mk.inj hr
    simp [hhead]

/-- What a head of a chain is taken from. -/
structure Entry (s : MatchState) (kind : MatchKind) (curMatch : Nat) : Prop where
  pos : 0 < curMatch
  lt : curMatch < s.strstart
  dist : s.strstart - curMatch ≤ s.maxDist
  prev : ∀ i, s.prev i < s.strstart
  look : kind = .plain → stdMinMatch - 1 ≤ s.lookahead

theorem stuck_entry {prevLength : Nat} (h : prevLength < 2 ^ 16) (kind : MatchKind) :
    (stuckState prevLength h).Entry kind 5 where
  pos := by decide
  lt := (by decide : 5 < 6)
  dist := (by decide : 6 - 5 ≤ sub32 32768 minLookahead)
  prev _ := (by decide : 5 < 6)
  look _ := (by omega : 2 ≤ prevLength + 4)

theorem links_stuck {prevLength : Nat} (h : prevLength < 2 ^ 16) (kind : MatchKind)
    (compare : Compare256) (good lazy nice chain : Int)
    (hbudget : ((stuckState prevLength h).deflateTune good lazy nice chain).budget kind = 0) :
    (((stuckState prevLength h).deflateTune good lazy nice chain).longestMatch kind compare 5).links =
      2 ^ 32 - 1 := by
  set s := (stuckState prevLength h).deflateTune good lazy nice chain with hs
  have hmax : s.maxDist = 32506 := (by decide : sub32 32768 minLookahead = 32506)
  have hstart : s.strstart = 6 := rfl
  have hlimit : s.limit 0 = 0 := by
    rw [limit, limitBase, hmax, hstart]
    rfl
  have hstuck (bestLen ms n l : Nat) : Stuck s ⟨bestLen, 5, 0, ms, n, l⟩ :=
    ⟨s.stuck_test rfl hstart _ _ _ _, rfl, by dsimp only; omega⟩
  have hsearch (bestLen ms : Nat) :
      (s.search kind compare ⟨bestLen, 5, 0, ms, 0, 0⟩).links = 2 ^ 32 - 1 := by
    have hwalk := s.walk_stuck_zero (hstuck bestLen ms)
    have hround : s.round kind compare ⟨bestLen, 5, 0, ms, 0, 0⟩ =
        .done ⟨bestLen, ms, 2 ^ 32 - 1⟩ := by
      rw [round, hstart, if_neg (by dsimp only; omega), hwalk]
      rfl
    rw [search_done hround]
  have hlook : ¬ (kind ≠ .plain ∧ s.lookahead ≤ s.entryLen kind) := by
    rintro ⟨hplain, hle⟩
    have hlen : s.entryLen kind ≤ prevLength + 2 := by
      have hprev : s.prevLength = prevLength := rfl
      have hstd : stdMinMatch = 3 := rfl
      unfold entryLen
      split
      · omega
      · rw [hprev]
        split <;> omega
    have hahead : s.lookahead = prevLength + 4 := rfl
    omega
  unfold longestMatch
  dsimp only
  rw [if_neg hlook, entry_stuck s rfl, hbudget]
  split
  · rw [hlimit, if_neg (by decide)]
    exact hsearch _ _
  · exact hsearch _ _

/-- Every search follows no more links than are configured, whatever the window and the hash
tables hold, exactly if the counter it starts from is not zero. -/
theorem links_le_maxChain (kind : MatchKind) (compare : Compare256)
    (goodLength maxLazy niceLength maxChain : Int) (prevLength : Nat) (h : prevLength < 2 ^ 16) :
    (∀ (s : MatchState) (curMatch : Nat), s.prevLength = prevLength → s.Entry kind curMatch →
      ((s.deflateTune goodLength maxLazy niceLength maxChain).longestMatch kind compare
        curMatch).links ≤ toUnsigned maxChain) ↔
    ¬ (toUnsigned maxChain = 0 ∨
      toUnsigned maxChain < 4 ∧ toUnsigned goodLength ≤ (stuckState prevLength h).entryLen kind) := by
  have hzero (s : MatchState) (hprev : s.prevLength = prevLength) :
      (s.deflateTune goodLength maxLazy niceLength maxChain).budget kind = 0 ↔
        toUnsigned maxChain = 0 ∨
          toUnsigned maxChain < 4 ∧ toUnsigned goodLength ≤ (stuckState prevLength h).entryLen kind := by
    have hentry : (s.deflateTune goodLength maxLazy niceLength maxChain).entryLen kind =
        (stuckState prevLength h).entryLen kind := by
      cases kind with
      | plain => rfl
      | slowKnuth =>
        unfold entryLen
        rw [show (s.deflateTune goodLength maxLazy niceLength maxChain).prevLength = prevLength from hprev]
        rfl
      | slowRoll =>
        unfold entryLen
        rw [show (s.deflateTune goodLength maxLazy niceLength maxChain).prevLength = prevLength from hprev]
        rfl
    unfold budget
    rw [hentry]
    change (if toUnsigned goodLength ≤ _ then toUnsigned maxChain >>> 2 else toUnsigned maxChain) = 0 ↔ _
    split
    · rw [Nat.shiftRight_eq_div_pow]
      omega
    · omega
  constructor
  · intro hall hbad
    have hbudget := (hzero (stuckState prevLength h) rfl).mpr hbad
    have hle := hall (stuckState prevLength h) 5 rfl (stuck_entry h kind)
    rw [links_stuck h kind compare goodLength maxLazy niceLength maxChain hbudget] at hle
    omega
  · intro hgood s curMatch hprev _
    have hne := fun hb => hgood ((hzero s hprev).mp hb)
    exact (links_le_budget _ kind compare curMatch hne).trans (budget_le _ kind)

/-- A chain of two links at most is searched no farther, with any state. -/
theorem links_le_maxChain_two :
    (∀ (s : MatchState) (curMatch : Nat), s.prevLength = 0 → s.Entry .slowKnuth curMatch →
      ((s.deflateTune 8 16 32 2).longestMatch .slowKnuth .words curMatch).links ≤ toUnsigned 2) ↔
    ¬ (toUnsigned 2 = 0 ∨
      toUnsigned 2 < 4 ∧ toUnsigned 8 ≤ (stuckState 0 (by decide)).entryLen .slowKnuth) :=
  links_le_maxChain .slowKnuth .words 8 16 32 2 0 (by decide)

/-- With no links allowed, the counter wraps and all its values are used. -/
theorem links_le_maxChain_zero :
    (stuckState 0 (by decide)).Entry .plain 5 ∧
      (((stuckState 0 (by decide)).deflateTune 4 4 8 0).longestMatch .plain .words 5).links =
        2 ^ 32 - 1 ∧
      ¬ (((stuckState 0 (by decide)).deflateTune 4 4 8 0).longestMatch .plain .words 5).links ≤
        toUnsigned 0 := by
  have hlinks := @links_stuck 0 (by decide) .plain .words 4 4 8 0 (by decide)
  refine ⟨stuck_entry (by decide) .plain, hlinks, ?_⟩
  rw [hlinks]
  decide

end MatchState
end ZlibNg
