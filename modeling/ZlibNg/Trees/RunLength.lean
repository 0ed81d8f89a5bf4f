import Mathlib.Algebra.BigOperators.Group.Finset.Basic
import Mathlib.Logic.Function.Basic

/-! The run lengths of a tree description: `scan_tree` counts the symbols, and `send_tree` sends
them. -/
namespace ZlibNg

/-- The last length emitted, the repeat count of the current one, and its bounds. -/
structure RunState where
  prevlen : Int
  count : Nat
  maxCount : Nat
  minCount : Nat
  deriving DecidableEq

namespace RunState

def start (nextlen : Nat) : RunState :=
  if nextlen = 0 then ⟨-1, 0, 138, 3⟩ else ⟨-1, 0, 7, 4⟩

/-- The bounds for the next run. -/
def reset (curlen nextlen : Nat) : RunState :=
  if nextlen = 0 then ⟨curlen, 0, 138, 3⟩
  else if curlen = nextlen then ⟨curlen, 0, 6, 3⟩
  else ⟨curlen, 0, 7, 4⟩

end RunState

/-- The length after the last one. -/
def guardLen : Nat := 0xffff

/-- `bl_tree[sym].Freq += count`. -/
def addFreq (freq : Nat → Nat) (sym count : Nat) : Nat → Nat :=
  Function.update freq sym (freq sym + count)

/-- One round of `scan_tree`. -/
def scanStep (s : RunState × (Nat → Nat)) (curlen nextlen : Nat) : RunState × (Nat → Nat) :=
  let count := s.1.count + 1
  if count < s.1.maxCount ∧ curlen = nextlen then ({ s.1 with count := count }, s.2)
  else
    let freq :=
      if count < s.1.minCount then addFreq s.2 curlen count
      else if curlen ≠ 0 then
        addFreq (if (curlen : Int) ≠ s.1.prevlen then addFreq s.2 curlen 1 else s.2) 16 1
      else if count ≤ 10 then addFreq s.2 17 1
      else addFreq s.2 18 1
    (.reset curlen nextlen, freq)

/-- `scan_tree`, for the lengths up to `max_code`. -/
def scanLoop : List Nat → RunState × (Nat → Nat) → RunState × (Nat → Nat)
  | [], s => s
  | curlen :: rest, s => scanLoop rest (scanStep s curlen (rest.headD guardLen))

def scanTree (lens : List Nat) (freq : Nat → Nat) : Nat → Nat :=
  (scanLoop lens (.start (lens.headD guardLen), freq)).2

/-- A symbol of the bit length tree, and its extra bits. -/
structure LenSym where
  sym : Nat
  extra : Nat
  extraBits : Nat
  deriving DecidableEq

/-- One round of `send_tree`. -/
def sendStep (s : RunState × List LenSym) (curlen nextlen : Nat) : RunState × List LenSym :=
  let count := s.1.count + 1
  if count < s.1.maxCount ∧ curlen = nextlen then ({ s.1 with count := count }, s.2)
  else
    let sent :=
      if count < s.1.minCount then List.replicate count ⟨curlen, 0, 0⟩
      else if curlen ≠ 0 then
        if (curlen : Int) ≠ s.1.prevlen then [⟨curlen, 0, 0⟩, ⟨16, count - 1 - 3, 2⟩]
        else [⟨16, count - 3, 2⟩]
      else if count ≤ 10 then [⟨17, count - 3, 3⟩]
      else [⟨18, count - 11, 7⟩]
    (.reset curlen nextlen, s.2 ++ sent)

/-- `send_tree`: the symbols sent. -/
def sendLoop : List Nat → RunState × List LenSym → RunState × List LenSym
  | [], s => s
  | curlen :: rest, s => sendLoop rest (sendStep s curlen (rest.headD guardLen))

def sendTree (lens : List Nat) : List LenSym :=
  (sendLoop lens (.start (lens.headD guardLen), [])).2

/-- The two loops make the same choices, and what is counted is what is sent. -/
structure Counted (freq₀ : Nat → Nat) (scan : RunState × (Nat → Nat)) (send : RunState × List LenSym) :
    Prop where
  same : scan.1 = send.1
  freq : ∀ n, scan.2 n = freq₀ n + send.2.countP (·.sym = n)

@[simp] theorem addFreq_apply (freq : Nat → Nat) (sym count n : Nat) :
    addFreq freq sym count n = freq n + if sym = n then count else 0 := by
  unfold addFreq
  by_cases h : sym = n
  · rw [if_pos h, h, Function.update_self]
  · rw [if_neg h, Function.update_of_ne (Ne.symm h), Nat.add_zero]

theorem Counted.step {freq₀ : Nat → Nat} {scan : RunState × (Nat → Nat)}
    {send : RunState × List LenSym} (h : Counted freq₀ scan send) (curlen nextlen : Nat) :
    Counted freq₀ (scanStep scan curlen nextlen) (sendStep send curlen nextlen) := by
  obtain ⟨s, freq⟩ := scan
  obtain ⟨s', sent⟩ := send
  obtain ⟨hsame, hfreq⟩ := h
  dsimp only at hsame hfreq
  subst hsame
  unfold scanStep sendStep
  dsimp only
  by_cases hrun : s.count + 1 < s.maxCount ∧ curlen = nextlen
  · rw [if_pos hrun, if_pos hrun]
    exact ⟨rfl, hfreq⟩
  rw [if_neg hrun, if_neg hrun]
  refine ⟨rfl, fun n => ?_⟩
  dsimp only
  rw [List.countP_append, ← Nat.add_assoc, ← hfreq n]
  -- the same branches on both sides
  by_cases hmin : s.count + 1 < s.minCount
  · rw [if_pos hmin, if_pos hmin, addFreq_apply, List.countP_replicate]
    simp
  rw [if_neg hmin, if_neg hmin]
  by_cases h0 : curlen = 0
  · rw [if_neg (not_not.mpr h0), if_neg (not_not.mpr h0)]
    split <;> simp [List.countP_cons]
  · rw [if_pos h0, if_pos h0]
    split <;> simp [List.countP_cons, Nat.add_assoc, Nat.add_comm]

theorem Counted.loop {freq₀ : Nat → Nat} {scan : RunState × (Nat → Nat)}
    {send : RunState × List LenSym} (h : Counted freq₀ scan send) (lens : List Nat) :
    Counted freq₀ (scanLoop lens scan) (sendLoop lens send) := by
  induction lens generalizing scan send with
  | nil => exact h
  | cons curlen rest ih => exact ih (h.step curlen _)

/-- `scan_tree` counts each symbol as often as `send_tree` sends it. -/
theorem scanTree_count (lens : List Nat) (freq : Nat → Nat) (n : Nat) :
    scanTree lens freq n = freq n + (sendTree lens).countP (·.sym = n) := by
  have hstart : Counted freq (.start (lens.headD guardLen), freq) (.start (lens.headD guardLen), []) :=
    ⟨rfl, fun _ => (Nat.add_zero _).symm⟩
  exact (hstart.loop lens).freq n

/-- The extra bits of a symbol of the bit length tree. -/
def LenSym.Proper (x : LenSym) : Prop :=
  x.sym < 19 ∧ x.extraBits = if x.sym = 16 then 2 else if x.sym = 17 then 3 else
    if x.sym = 18 then 7 else 0

theorem sendStep_proper {s : RunState × List LenSym} {curlen : Nat} (hcur : curlen ≤ 15)
    (h : ∀ x ∈ s.2, x.Proper) (nextlen : Nat) : ∀ x ∈ (sendStep s curlen nextlen).2, x.Proper := by
  have hlen : LenSym.Proper ⟨curlen, 0, 0⟩ := by
    refine ⟨by dsimp only; omega, ?_⟩
    dsimp only
    rw [if_neg (by omega), if_neg (by omega), if_neg (by omega)]
  unfold sendStep
  dsimp only
  split
  · exact h
  intro x hx
  rcases List.mem_append.mp hx with hx | hx
  · exact h x hx
  split at hx
  · obtain rfl := List.eq_of_mem_replicate hx
    exact hlen
  split at hx
  · split at hx
    · rcases List.mem_cons.mp hx with rfl | hx
      · exact hlen
      · obtain rfl := List.mem_singleton.mp hx
        exact ⟨show 16 < 19 by decide, rfl⟩
    · obtain rfl := List.mem_singleton.mp hx
      exact ⟨show 16 < 19 by decide, rfl⟩
  split at hx
  · obtain rfl := List.mem_singleton.mp hx
    exact ⟨show 17 < 19 by decide, rfl⟩
  · obtain rfl := List.mem_singleton.mp hx
    exact ⟨show 18 < 19 by decide, rfl⟩

theorem sendTree_proper {lens : List Nat} (h : ∀ len ∈ lens, len ≤ 15) :
    ∀ x ∈ sendTree lens, x.Proper := by
  have hloop : ∀ (lens : List Nat) (s : RunState × List LenSym), (∀ len ∈ lens, len ≤ 15) →
      (∀ x ∈ s.2, x.Proper) → ∀ x ∈ (sendLoop lens s).2, x.Proper := by
    intro lens
    induction lens with
    | nil => exact fun s _ hs => hs
    | cons curlen rest ih =>
      intro s hlens hs
      exact ih _ (fun len hlen => hlens len (List.mem_cons_of_mem _ hlen))
        (sendStep_proper (hlens curlen List.mem_cons_self) hs _)
  exact hloop lens _ h fun x hx => absurd hx List.not_mem_nil

/-- At most the lengths seen are sent, less the run not yet sent. -/
structure Behind (seen : Nat) (s : RunState × List LenSym) : Prop where
  minCount : 2 ≤ s.1.minCount
  length : s.2.length + s.1.count ≤ seen

theorem RunState.reset_count (curlen nextlen : Nat) : (reset curlen nextlen).count = 0 := by
  unfold reset
  split
  · rfl
  · split <;> rfl

theorem RunState.reset_minCount (curlen nextlen : Nat) : 2 ≤ (reset curlen nextlen).minCount := by
  unfold reset
  split
  · exact show 2 ≤ 3 by decide
  · split
    · exact show 2 ≤ 3 by decide
    · exact show 2 ≤ 4 by decide

theorem Behind.step {seen : Nat} {s : RunState × List LenSym} (h : Behind seen s)
    (curlen nextlen : Nat) : Behind (seen + 1) (sendStep s curlen nextlen) := by
  obtain ⟨hmin, hlen⟩ := h
  unfold sendStep
  dsimp only
  split
  · exact ⟨hmin, (Nat.add_assoc _ _ _).ge.trans (Nat.add_le_add_right hlen 1)⟩
  refine ⟨RunState.reset_minCount curlen nextlen, ?_⟩
  dsimp only
  rw [RunState.reset_count, List.length_append]
  -- a run that is long enough has room for its symbols
  split
  · rw [List.length_replicate]
    omega
  split
  · split
    · simp only [List.length_cons, List.length_nil]
      omega
    · simp only [List.length_cons, List.length_nil]
      omega
  split <;> simp only [List.length_cons, List.length_nil] <;> omega

theorem sendTree_length_le (lens : List Nat) : (sendTree lens).length ≤ lens.length := by
  have hloop : ∀ (lens : List Nat) (seen : Nat) (s : RunState × List LenSym), Behind seen s →
      (sendLoop lens s).2.length ≤ seen + lens.length := by
    intro lens
    induction lens with
    | nil => exact fun seen s h => (Nat.le_add_right _ _).trans h.length
    | cons curlen rest ih =>
      intro seen s h
      refine (ih (seen + 1) _ (h.step curlen _)).trans ?_
      rw [List.length_cons]
      omega
  have hstart : Behind 0 (RunState.start (lens.headD guardLen), []) := by
    unfold RunState.start
    split
    · exact ⟨show 2 ≤ 3 by decide, Nat.le_refl 0⟩
    · exact ⟨show 2 ≤ 4 by decide, Nat.le_refl 0⟩
  exact (hloop lens 0 _ hstart).trans (Nat.zero_add _).le

/-- What a symbol adds to the lengths before it. -/
def LenSym.expand (lens : List Nat) (x : LenSym) : Option (List Nat) :=
  if x.sym < 16 then some (lens ++ [x.sym])
  else if x.sym = 16 then lens.getLast?.map fun len => lens ++ List.replicate (3 + x.extra) len
  else if x.sym = 17 then some (lens ++ List.replicate (3 + x.extra) 0)
  else some (lens ++ List.replicate (11 + x.extra) 0)

theorem expand_copy {lens : List Nat} {len : Nat} (h : lens.getLast? = some len) (extra bits : Nat) :
    LenSym.expand lens ⟨16, extra, bits⟩ = some (lens ++ List.replicate (3 + extra) len) := by
  unfold LenSym.expand
  dsimp only
  rw [if_neg (Nat.lt_irrefl 16), if_pos rfl, h]
  rfl

theorem expand_replicate {curlen : Nat} (h : curlen ≤ 15) (lens : List Nat) (count : Nat) :
    (List.replicate count ⟨curlen, 0, 0⟩).foldlM LenSym.expand lens =
      some (lens ++ List.replicate count curlen) := by
  induction count generalizing lens with
  | zero => rw [List.replicate_zero, List.replicate_zero, List.append_nil]; rfl
  | succ count ih =>
    have hone : LenSym.expand lens ⟨curlen, 0, 0⟩ = some (lens ++ [curlen]) :=
      if_pos (show curlen < 16 by omega)
    rw [List.replicate_succ, List.foldlM_cons, hone, Option.bind_eq_bind, Option.bind_some, ih,
      List.replicate_succ, List.append_assoc]
    rfl

/-- The symbols sent expand to the lengths before the current run, of `curlen`; its bounds are
those of the length. -/
structure Expands (acc done : List Nat) (s : RunState × List LenSym) (curlen : Nat) : Prop where
  sent : s.2.foldlM LenSym.expand acc = some (acc ++ done)
  fits : ∀ x ∈ s.2, x.extra < 2 ^ x.extraBits
  prev : s.1.prevlen = -1 ∨ ∃ p : Nat, s.1.prevlen = p ∧ (acc ++ done).getLast? = some p
  zero : curlen = 0 → s.1.maxCount = 138 ∧ s.1.minCount = 3
  same : curlen ≠ 0 → s.1.prevlen = curlen → s.1.maxCount = 6 ∧ s.1.minCount = 3
  other : curlen ≠ 0 → s.1.prevlen ≠ curlen → s.1.maxCount = 7 ∧ s.1.minCount = 4
  count : s.1.count < s.1.maxCount

/-- The symbols of one run. -/
def runSyms (s : RunState) (curlen count : Nat) : List LenSym :=
  if count < s.minCount then List.replicate count ⟨curlen, 0, 0⟩
  else if curlen ≠ 0 then
    if (curlen : Int) ≠ s.prevlen then [⟨curlen, 0, 0⟩, ⟨16, count - 1 - 3, 2⟩]
    else [⟨16, count - 3, 2⟩]
  else if count ≤ 10 then [⟨17, count - 3, 3⟩]
  else [⟨18, count - 11, 7⟩]

/-- They expand to the run, and their extra bits fit. -/
theorem Expands.run {acc done : List Nat} {s : RunState × List LenSym} {curlen : Nat}
    (h : Expands acc done s curlen) (hcur : curlen ≤ 15) :
    (runSyms s.1 curlen (s.1.count + 1)).foldlM LenSym.expand (acc ++ done) =
        some (acc ++ done ++ List.replicate (s.1.count + 1) curlen) ∧
      ∀ x ∈ runSyms s.1 curlen (s.1.count + 1), x.extra < 2 ^ x.extraBits := by
  have hcount := h.count
  unfold runSyms
  by_cases hmin : s.1.count + 1 < s.1.minCount
  · rw [if_pos hmin]
    refine ⟨expand_replicate hcur _ _, fun x hx => ?_⟩
    obtain rfl := List.eq_of_mem_replicate hx
    exact Nat.one_pos
  rw [if_neg hmin]
  by_cases h0 : curlen = 0
  · -- zeros
    obtain ⟨hmax, hmin'⟩ := h.zero h0
    rw [if_neg (not_not.mpr h0), h0]
    by_cases h10 : s.1.count + 1 ≤ 10
    · rw [if_pos h10]
      refine ⟨?_, fun x hx => ?_⟩
      · have hexp : LenSym.expand (acc ++ done) ⟨17, s.1.count + 1 - 3, 3⟩ =
            some (acc ++ done ++ List.replicate (3 + (s.1.count + 1 - 3)) 0) := rfl
        rw [List.foldlM_cons, hexp, show 3 + (s.1.count + 1 - 3) = s.1.count + 1 by omega]
        rfl
      · obtain rfl := List.mem_singleton.mp hx
        exact show s.1.count + 1 - 3 < 8 by omega
    · rw [if_neg h10]
      refine ⟨?_, fun x hx => ?_⟩
      · have hexp : LenSym.expand (acc ++ done) ⟨18, s.1.count + 1 - 11, 7⟩ =
            some (acc ++ done ++ List.replicate (11 + (s.1.count + 1 - 11)) 0) := rfl
        rw [List.foldlM_cons, hexp, show 11 + (s.1.count + 1 - 11) = s.1.count + 1 by omega]
        rfl
      · obtain rfl := List.mem_singleton.mp hx
        exact show s.1.count + 1 - 11 < 128 by omega
  · rw [if_pos h0]
    by_cases hprev : (curlen : Int) ≠ s.1.prevlen
    · -- the length itself, and its repetition
      obtain ⟨hmax, hmin'⟩ := h.other h0 (Ne.symm hprev)
      rw [if_pos hprev]
      refine ⟨?_, fun x hx => ?_⟩
      · have hone : LenSym.expand (acc ++ done) ⟨curlen, 0, 0⟩ = some (acc ++ done ++ [curlen]) :=
          if_pos (show curlen < 16 by omega)
        have hexp : LenSym.expand (acc ++ done ++ [curlen]) ⟨16, s.1.count + 1 - 1 - 3, 2⟩ =
            some (acc ++ done ++ [curlen] ++ List.replicate (3 + (s.1.count + 1 - 1 - 3)) curlen) :=
          expand_copy List.getLast?_concat _ _
        rw [List.foldlM_cons, hone, Option.bind_eq_bind, Option.bind_some, List.foldlM_cons, hexp,
          show 3 + (s.1.count + 1 - 1 - 3) = s.1.count by omega, List.replicate_succ, List.append_assoc]
        rfl
      · rcases List.mem_cons.mp hx with rfl | hx
        · exact Nat.one_pos
        · obtain rfl := List.mem_singleton.mp hx
          exact show s.1.count + 1 - 1 - 3 < 4 by omega
    · have hprev := not_not.mp hprev
      obtain ⟨hmax, hmin'⟩ := h.same h0 hprev.symm
      rw [if_neg (not_not.mpr hprev)]
      have hlast : (acc ++ done).getLast? = some curlen := by
        rcases h.prev with hneg | ⟨p, hp, hl⟩
        · omega
        · rw [hl, show p = curlen by omega]
      refine ⟨?_, fun x hx => ?_⟩
      · have hexp : LenSym.expand (acc ++ done) ⟨16, s.1.count + 1 - 3, 2⟩ =
            some (acc ++ done ++ List.replicate (3 + (s.1.count + 1 - 3)) curlen) :=
          expand_copy hlast _ _
        rw [List.foldlM_cons, hexp, show 3 + (s.1.count + 1 - 3) = s.1.count + 1 by omega]
        rfl
      · obtain rfl := List.mem_singleton.mp hx
        exact show s.1.count + 1 - 3 < 4 by omega

theorem sendStep_run {s : RunState × List LenSym} {curlen nextlen : Nat}
    (h : ¬ (s.1.count + 1 < s.1.maxCount ∧ curlen = nextlen)) :
    sendStep s curlen nextlen =
      (.reset curlen nextlen, s.2 ++ runSyms s.1 curlen (s.1.count + 1)) := by
  unfold sendStep runSyms
  exact if_neg h

/-- The next run starts with the bounds of its length. -/
theorem Expands.reset {acc done : List Nat} {s : RunState × List LenSym} {curlen : Nat}
    (h : Expands acc done s curlen) (hcur : curlen ≤ 15) (nextlen : Nat) :
    Expands acc (done ++ List.replicate (s.1.count + 1) curlen)
      (.reset curlen nextlen, s.2 ++ runSyms s.1 curlen (s.1.count + 1)) nextlen := by
  obtain ⟨hrun, hfits⟩ := h.run hcur
  refine ⟨?_, fun x hx => ?_, ?_, fun h0 => ?_, fun h0 hp => ?_, fun h0 hp => ?_, ?_⟩
  · dsimp only
    rw [List.foldlM_append, h.sent, Option.bind_eq_bind, Option.bind_some, hrun, List.append_assoc]
  · exact (List.mem_append.mp hx).elim (h.fits x) (hfits x)
  · right
    refine ⟨curlen, ?_, ?_⟩
    · unfold RunState.reset
      split
      · rfl
      · split <;> rfl
    · rw [List.replicate_succ', ← List.append_assoc, ← List.append_assoc, List.getLast?_concat]
  · unfold RunState.reset
    rw [if_pos h0]
    exact ⟨rfl, rfl⟩
  · unfold RunState.reset at hp ⊢
    rw [if_neg h0] at hp ⊢
    by_cases heq : curlen = nextlen
    · rw [if_pos heq]
      exact ⟨rfl, rfl⟩
    · rw [if_neg heq] at hp
      exact absurd (Int.ofNat.inj hp) heq
  · unfold RunState.reset at hp ⊢
    rw [if_neg h0] at hp ⊢
    by_cases heq : curlen = nextlen
    · rw [if_pos heq] at hp
      exact absurd (congrArg Int.ofNat heq) hp
    · rw [if_neg heq]
      exact ⟨rfl, rfl⟩
  · unfold RunState.reset
    split
    · exact show 0 < 138 by decide
    · split
      · exact show 0 < 6 by decide
      · exact show 0 < 7 by decide

theorem Expands.loop {acc : List Nat} (lens : List Nat) (hlens : ∀ len ∈ lens, len ≤ 15)
    {done : List Nat} {s : RunState × List LenSym} (h : Expands acc done s (lens.headD guardLen))
    (hnil : lens = [] → s.1.count = 0) :
    (sendLoop lens s).2.foldlM LenSym.expand acc =
        some (acc ++ (done ++ List.replicate s.1.count (lens.headD guardLen) ++ lens)) ∧
      ∀ x ∈ (sendLoop lens s).2, x.extra < 2 ^ x.extraBits := by
  induction lens generalizing done s with
  | nil =>
    rw [hnil rfl, List.replicate_zero, List.append_nil, List.append_nil]
    exact ⟨h.sent, h.fits⟩
  | cons curlen rest ih =>
    have hcur := hlens curlen List.mem_cons_self
    have hrest : ∀ len ∈ rest, len ≤ 15 := fun len hlen => hlens len (List.mem_cons_of_mem _ hlen)
    rw [sendLoop]
    change Expands acc done s curlen at h
    by_cases hrun : s.1.count + 1 < s.1.maxCount ∧ curlen = rest.headD guardLen
    · -- the run goes on; it cannot reach the guard
      have hstep : sendStep s curlen (rest.headD guardLen) =
          ({ s.1 with count := s.1.count + 1 }, s.2) := by
        unfold sendStep
        exact if_pos hrun
      have hne : rest ≠ [] := by
        rintro rfl
        have hguard : curlen = 65535 := hrun.2
        omega
      rw [hstep]
      obtain ⟨h1, h2⟩ := @ih hrest done ({ s.1 with count := s.1.count + 1 }, s.2)
        (hrun.2 ▸ ⟨h.sent, h.fits, h.prev, h.zero, h.same, h.other, hrun.1⟩) fun he => absurd he hne
      refine ⟨?_, h2⟩
      rw [h1, ← hrun.2]
      dsimp only [List.headD_cons]
      rw [List.replicate_succ', List.append_assoc, List.append_assoc, List.append_assoc]
      rfl
    · rw [sendStep_run hrun]
      obtain ⟨h1, h2⟩ := ih hrest (h.reset hcur (rest.headD guardLen)) fun _ =>
        RunState.reset_count curlen _
      refine ⟨?_, h2⟩
      rw [h1]
      dsimp only [List.headD_cons]
      rw [RunState.reset_count, List.replicate_zero, List.append_nil, List.replicate_succ',
        List.append_assoc, List.append_assoc, List.append_assoc]
      rfl

/-- What is sent of a tree stands for its lengths, whatever came before. -/
theorem expand_sendTree {lens : List Nat} (hlens : ∀ len ∈ lens, len ≤ 15) (acc : List Nat) :
    (sendTree lens).foldlM LenSym.expand acc = some (acc ++ lens) ∧
      ∀ x ∈ sendTree lens, x.extra < 2 ^ x.extraBits := by
  have hstart : Expands acc [] (RunState.start (lens.headD guardLen), []) (lens.headD guardLen) := by
    unfold RunState.start
    by_cases h0 : lens.headD guardLen = 0
    · rw [if_pos h0]
      exact ⟨by rw [List.append_nil]; rfl, fun x hx => absurd hx List.not_mem_nil, .inl rfl,
        fun _ => ⟨rfl, rfl⟩, fun h => absurd h0 h, fun h => absurd h0 h, show 0 < 138 by decide⟩
    · rw [if_neg h0]
      exact ⟨by rw [List.append_nil]; rfl, fun x hx => absurd hx List.not_mem_nil, .inl rfl,
        fun h => absurd h h0, fun _ hp => by dsimp only at hp; omega, fun _ _ => ⟨rfl, rfl⟩,
        show 0 < 7 by decide⟩
  have hcount : (RunState.start (lens.headD guardLen)).count = 0 := by
    unfold RunState.start
    split <;> rfl
  obtain ⟨h1, h2⟩ := hstart.loop lens hlens fun _ => hcount
  refine ⟨h1.trans ?_, h2⟩
  dsimp only
  rw [hcount, List.replicate_zero, List.append_nil, List.nil_append]

end ZlibNg
