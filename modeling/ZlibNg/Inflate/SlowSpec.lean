import ZlibNg.Inflate.SymbolRun

/-! The slow states `LEN` to `LIT` decode the symbols at the front of the stream, given enough
input and output. -/
namespace ZlibNg
open BitProg

/-- The modes from `LEN` to `LIT`. -/
def Mode.inSymbol : Mode → Bool
  | .len | .lenext | .dist | .distext | .match_ | .lit => true
  | _ => false

/-- A pass of the loop that does not call `inflate_fast`. -/
def Regs.slowStep (flush : Flush) (r : Regs) : Ctl :=
  if r.st.mode = .len then r.caseLenSlow flush else r.step flush

/-- One step of the slow states. -/
def SlowStep (flush : Flush) (r r' : Regs) : Prop :=
  r.st.mode.inSymbol = true ∧ r.slowStep flush = .loop r'

/-- Any number of steps of the slow states. -/
def SlowSteps (flush : Flush) : Regs → Regs → Prop := Relation.ReflTransGen (SlowStep flush)

section Run
variable (flush : Flush) {r : Regs} {s s' : InflateState} {v v' : BitStream}

/-- A case whose program ends on the stream ends on the accumulator. -/
theorem runCase_stream {p : CaseProg} {L : Nat → Prop} (hwp : p.wp true r.acc.bits 0 L Fine)
    (h : p.runStream 0 r.acc.stream = some (s', v')) (hm : s'.mode ≠ .len_ ∧ s'.mode ≠ .copy_) :
    ∃ acc, r.runCase flush p = .loop { r with st := s', acc := acc } ∧ acc.mem = r.acc.mem ∧
      acc.stream = v' ∧ s'.Ok ∧ s'.BitsOk acc.bits := by
  have hspec := run_spec p hwp
  unfold Regs.runCase
  generalize p.run r.acc = res at hspec ⊢
  cases res with
  | leave acc =>
    obtain ⟨-, hleft⟩ := hspec
    rw [hleft.stuck] at h
    cases h
  | done st acc =>
    have hs := hspec.stream []
    rw [BitStream.append_nil, BitStream.append_nil, h] at hs
    obtain ⟨rfl, rfl⟩ : s' = st ∧ v' = acc.stream := by simpa using hs
    obtain ⟨u, ⟨hok, hbits, -⟩, -⟩ := hspec.post
    refine ⟨acc, ?_, hspec.mem, rfl, hok, hbits⟩
    dsimp only
    rw [if_neg (by simp [hm])]

theorem afterLen_mode (s : InflateState) (here : Code) (back : Nat) :
    (s.afterLen here back).mode ≠ .len_ ∧ (s.afterLen here back).mode ≠ .copy_ := by
  unfold InflateState.afterLen
  split
  · simp
  · split
    · simp
    · split <;> simp

theorem afterDist_mode (s : InflateState) (here : Code) (back : Nat) :
    (s.afterDist here back).mode ≠ .len_ ∧ (s.afterDist here back).mode ≠ .copy_ := by
  unfold InflateState.afterDist
  dsimp only
  split <;> simp

/-- No code leads to a mode after which `Z_TREES` would leave. -/
theorem code_mode {p : CaseProg} (hc : s.mode.inCode = true) (hok : s.Ok) (hp : s.bitCase = some p)
    (h : p.runStream 0 v = some (s', v')) : s'.mode ≠ .len_ ∧ s'.mode ≠ .copy_ := by
  unfold InflateState.Ok at hok
  unfold InflateState.bitCase at hp
  generalize hm : s.mode = m at hc hok hp
  cases m <;> simp only [Mode.inCode, Bool.false_eq_true] at hc <;>
    simp only [Option.some.injEq] at hok hp <;> subst hp
  · rw [InflateState.caseLen_runStream hok] at h
    split at h
    · obtain ⟨rfl, -⟩ : _ = _ ∧ _ := by simpa using h
      exact afterLen_mode ..
    · cases h
  · rw [InflateState.caseLenext_runStream] at h
    split at h
    · obtain ⟨rfl, -⟩ : _ = _ ∧ _ := by simpa using h
      simp
    · cases h
  · rw [InflateState.caseDist_runStream hok.1] at h
    split at h
    · obtain ⟨rfl, -⟩ : _ = _ ∧ _ := by simpa using h
      exact afterDist_mode ..
    · cases h
  · rw [InflateState.caseDistext_runStream] at h
    split at h
    · obtain ⟨rfl, -⟩ : _ = _ ∧ _ := by simpa using h
      simp
    · cases h

/-- What a slow step runs in the modes of a code. -/
theorem slowStep_code {p : CaseProg} (hc : r.st.mode.inCode = true) (hp : r.st.bitCase = some p) :
    ∃ s, r.slowStep flush = { r with st := s }.runCase flush p := by
  unfold InflateState.bitCase at hp
  unfold Regs.slowStep Regs.step
  generalize hm : r.st.mode = m at hc hp ⊢
  cases m <;> simp only [Mode.inCode, Bool.false_eq_true] at hc <;>
    simp only [Option.some.injEq] at hp <;> subst hp
  · exact ⟨{ r.st with back := 0 }, rfl⟩
  · exact ⟨r.st, rfl⟩
  · exact ⟨r.st, rfl⟩
  · exact ⟨r.st, rfl⟩

theorem Mode.inSymbol_of_inCode {m : Mode} (h : m.inCode = true) : m.inSymbol = true := by
  cases m <;> first | rfl | cases h

/-- A run through the cases of a symbol is a run of the slow states. -/
theorem SymbolRun.slow (h : SymbolRun s v s' v') (hst : r.st = s) (hv : r.acc.stream = v)
    (hok : s.Ok) (hbits : s.BitsOk r.acc.bits) :
    ∃ acc, SlowSteps flush r { r with st := s', acc := acc } ∧ acc.mem = r.acc.mem ∧
      acc.stream = v' ∧ s'.Ok ∧ s'.BitsOk acc.bits := by
  induction h generalizing r with
  | refl s v =>
    subst hst hv
    exact ⟨r.acc, .refl, rfl, rfl, hok, hbits⟩
  | step hm hp h _ ih =>
    subst hst hv
    obtain ⟨s₀, hslow⟩ := slowStep_code flush hm hp
    obtain ⟨acc, hrun, hmem, hs, hok', hb'⟩ := runCase_stream flush
      (r := { r with st := s₀ }) (InflateState.bitCase_wp hp hok hbits) h (code_mode hm hok hp h)
    obtain ⟨acc', hsteps, hmem', hs', hfine⟩ := ih (r := { r with st := _, acc := acc }) rfl hs hok' hb'
    exact ⟨acc', .head ⟨Mode.inSymbol_of_inCode hm, hslow.trans hrun⟩ hsteps, hmem'.trans hmem, hs',
      hfine⟩

/-- One pass of `MATCH` copies some of the bytes, as from the whole history. -/
theorem caseMatch_copy (hleft : 0 < r.left) (hlen : 0 < r.st.length)
    (hmark : r.mark = r.left + r.out.length) (hw : r.st.whave ≤ r.st.wsize) (h0 : 0 < r.st.offset)
    (hd : r.st.offset ≤ r.out.length + r.st.whave) :
    ∃ n out, 0 < n ∧ n ≤ r.st.length ∧ n ≤ r.left ∧ r.caseMatch = r.matched n out ∧
      out ++ r.st.windowHist = copyMatch r.st.offset n (r.out ++ r.st.windowHist) := by
  have hback : r.mark - r.left = r.out.length := by omega
  simp only [Regs.caseMatch, hback, if_neg (show ¬ r.left = 0 by omega)]
  split
  · next hlt =>
    rw [if_neg (by omega)]
    have hdist : r.out.length + (r.st.offset - r.out.length) = r.st.offset := by omega
    split
    · next hhigh =>
      refine ⟨min (min (r.st.offset - r.out.length - r.st.wnext) r.st.length) r.left, _, by omega,
        by omega, by omega, rfl, ?_⟩
      rw [copyWindow_eq (r.st.offset - r.out.length) r.out (by omega) (by omega), hdist]
      have hsrc := window_high (s := r.st) (r.st.offset - r.out.length - r.st.wnext)
        (n := min (min (r.st.offset - r.out.length - r.st.wnext) r.st.length) r.left) hw
        (by omega) (by omega)
      rwa [Nat.add_sub_cancel' hhigh.le] at hsrc
    · next hlow =>
      refine ⟨min (min (r.st.offset - r.out.length) r.st.length) r.left, _, by omega, by omega,
        by omega, rfl, ?_⟩
      rw [copyWindow_eq (r.st.offset - r.out.length) r.out (by omega) (by omega)
        (window_low _ (by omega) (by omega)), hdist]
  · exact ⟨min r.st.length r.left, _, by omega, by omega, by omega, rfl,
      (copyMatch_append h0 _ (by omega) _).symm⟩

theorem caseMatch_far (hleft : 0 < r.left) (hmark : r.mark = r.left + r.out.length)
    (hfar : r.out.length + r.st.whave < r.st.offset) :
    r.caseMatch = .loop { r with st := r.st.setBad "invalid distance too far back" } := by
  have hback : r.mark - r.left = r.out.length := by omega
  simp only [Regs.caseMatch, hback, if_neg (show ¬ r.left = 0 by omega),
    if_pos (show r.out.length < r.st.offset by omega),
    if_pos (show r.st.whave < r.st.offset - r.out.length by omega)]

/-- `MATCH` until the whole match is copied. -/
theorem slow_copy (hm : r.st.mode = .match_) (hlen : 0 < r.st.length) (hleft : r.st.length ≤ r.left)
    (hmark : r.mark = r.left + r.out.length) (hw : r.st.whave ≤ r.st.wsize) (h0 : 0 < r.st.offset)
    (hd : r.st.offset ≤ r.out.length + r.st.whave) :
    ∃ out, SlowSteps flush r
        { r with st := { r.st with mode := .len, length := 0 }, left := r.left - r.st.length, out := out } ∧
      out ++ r.st.windowHist = copyMatch r.st.offset r.st.length (r.out ++ r.st.windowHist) := by
  generalize hn : r.st.length = n
  induction n using Nat.strong_induction_on generalizing r with
  | _ n ih =>
    obtain ⟨k, out, hk0, hk, hkl, hrun, hout⟩ := caseMatch_copy (by omega) hlen hmark hw h0 hd
    have hstep : r.slowStep flush = r.matched k out := by
      rw [Regs.slowStep, if_neg (by simp [hm]), Regs.step, hm]
      exact hrun
    have hlenout := congrArg List.length hout
    simp only [List.length_append, length_copyMatch] at hlenout
    have hsym : r.st.mode.inSymbol = true := by rw [hm]; rfl
    by_cases hlast : r.st.length - k = 0
    · have hkn : k = n := by omega
      refine ⟨out, .single ⟨hsym, hstep.trans ?_⟩, ?_⟩
      · rw [← hkn]
        simp only [Regs.matched, hlast, ↓reduceIte]
      · rw [hout, hkn]
    · obtain ⟨out', hsteps, hout'⟩ := ih (n - k) (by omega)
        (r := { r with st := { r.st with length := r.st.length - k }, left := r.left - k, out := out })
        hm (by dsimp only; omega) (by dsimp only; omega) (by dsimp only; omega) hw h0
        (by dsimp only; omega) (by dsimp only; omega)
      have hnext : r.slowStep flush = .loop { r with
          st := { r.st with length := r.st.length - k }, left := r.left - k, out := out } := by
        rw [hstep]
        simp only [Regs.matched, hlast, ↓reduceIte]
      have hleft' : r.left - k - (n - k) = r.left - n := by omega
      refine ⟨out', .head ⟨hsym, hnext⟩ (hleft' ▸ hsteps), ?_⟩
      · change out' ++ r.st.windowHist = copyMatch r.st.offset (n - k) (out ++ r.st.windowHist) at hout'
        rw [hout', hout, ← copyMatch_add]
        congr 1
        omega

end Run
end ZlibNg
