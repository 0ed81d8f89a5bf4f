import ZlibNg.Inflate.Account
import ZlibNg.Inflate.WindowUpdate

/-! The passes of the loop in the blocks and in the trailer keep the accounts, and the loop comes
to an end. -/
namespace ZlibNg
open BitProg

namespace Regs
variable {past : List UInt8} {start : Nat} {r : Regs} {flush : Flush}

section Block

/-- What the modes of the blocks do not change. -/
structure BlockKeeps (s s' : InflateState) : Prop where
  phase : s'.mode.phase = 1 ∨ s'.mode = .bad
  window : (s'.wsize, s'.whave, s'.wnext, s'.window) = (s.wsize, s.whave, s.wnext, s.window)
  wbits : s'.wbits = s.wbits
  check : (s'.check, s'.total, s'.wrap, s'.flags) = (s.check, s.total, s.wrap, s.flags)

/-- The accounts after a step in the blocks. -/
theorem Good.block (h : r.Good past start) (hm : r.st.mode.phase = 1) {s' : InflateState}
    {acc : BitReader} {left : Nat} {out : List UInt8} (hk : BlockKeeps r.st s') (hok : s'.Ok)
    (hbits : s'.BitsOk acc.bits) (hspace : left + out.length = r.left + r.out.length)
    (hleft : left ≤ r.left) :
    Good past start { r with st := s', acc := acc, left := left, out := out } := by
  obtain ⟨hphase, hwindow, -, hcheck⟩ := hk
  replace hphase : s'.mode.phase = 1 ∨ s'.mode.phase = 5 :=
    hphase.imp_right fun h => by rw [h]; rfl
  simp only [Prod.mk.injEq] at hwindow hcheck
  obtain ⟨hc, htotal, hwrap, hflags⟩ := hcheck
  have hmark := h.early (by omega)
  have hcounted := h.counted
  have hle := h.left
  refine ⟨hok, hbits, ?_, ?_, ?_, ?_, ?_, ?_, ?_, ?_⟩
  · dsimp only
    rw [hwindow.1, hwindow.2.1]
    exact h.whave
  · dsimp only
    omega
  · dsimp only
    omega
  · intro h0
    dsimp only at h0
    omega
  · intro _
    dsimp only
    omega
  · intro h3
    dsimp only at h3
    omega
  · intro _ hw
    dsimp only at hw ⊢
    rw [hwrap] at hw
    rw [hc, htotal, checkOf, hflags]
    exact h.check (.inl hm) hw
  · intro h3
    dsimp only at h3
    omega

theorem Follows.block (hm : r.st.mode.phase = 1) {s' : InflateState} {acc : BitReader} {left : Nat}
    {out : List UInt8} (hk : BlockKeeps r.st s') (hmem : acc.mem = r.acc.mem)
    (hends : acc.next + acc.have_ = r.acc.next + r.acc.have_) (hle : acc.have_ ≤ r.acc.have_)
    (hlazy : r.Lazy → acc.bits < 8) :
    r.Follows { r with st := s', acc := acc, left := left, out := out } := by
  obtain ⟨hphase, hwindow, hwbits, hcheck⟩ := hk
  simp only [Prod.mk.injEq] at hcheck
  refine ⟨hmem, hends, hle, hwindow, hcheck.2.2.1, fun _ => hwbits, ?_, ?_, ?_,
    fun hl => .inl (hlazy hl)⟩
  · intro hhead
    dsimp only at hhead
    rw [hhead] at hphase
    rcases hphase with hphase | hphase <;> cases hphase
  · intro hsync
    dsimp only at hsync
    rw [hsync] at hphase
    rcases hphase with hphase | hphase <;> cases hphase
  · rw [hm]
    rcases hphase with hphase | hphase
    · exact hphase.ge
    · dsimp only
      rw [hphase]
      decide

/-- From the blocks on to the blocks or to an error. -/
theorem follows_block {m m' : Mode} (hm : m.phase = 1) (hm' : m'.phase = 1 ∨ m' = .bad) :
    m.follows m' = true := by
  rw [Mode.follows_iff]
  rcases hm' with hm' | rfl
  · refine ⟨by omega, ⟨?_, ?_⟩, ?_, ?_⟩ <;> rintro rfl <;> cases hm'
  · rw [hm]
    exact ⟨by decide, by decide, nofun, nofun⟩

/-- A step in the blocks that reads no bits. -/
theorem Good.move (h : r.Good past start) (hm : r.st.mode.phase = 1) (hp : r.st.prog = none)
    {s' : InflateState} {left : Nat} {out : List UInt8} (hk : BlockKeeps r.st s') (hok : s'.Ok)
    (hbits : s'.BitsOk r.acc.bits) (hspace : left + out.length = r.left + r.out.length)
    (hleft : left ≤ r.left) (hrank : left < r.left ∨ rank s'.mode < rank r.st.mode) :
    r.StepGood past start (.loop { r with st := s', left := left, out := out }) := by
  have hbad : r.st.mode ≠ .bad := by
    intro hbad
    rw [hbad] at hm
    cases hm
  refine ⟨h.block hm hk hok hbits hspace hleft, .block hm hk rfl rfl le_rfl
    fun hl => hl.bits_lt hbad hp, ?_, follows_block hm hk.phase⟩
  have hlt : rank s'.mode < 13 := by cases s'.mode <;> decide
  simp only [measure]
  omega

/-- A case may be run after something that only follows. -/
theorem StepGood.before {r' : Regs} {p : CaseProg} (hstep : r'.StepGood past start (r'.runCase flush p))
    (hf : r.Follows r') (hle : r'.measure ≤ r.measure) (hm : r'.st.mode = r.st.mode) :
    r.StepGood past start (r'.runCase flush p) := by
  unfold Regs.runCase at hstep ⊢
  generalize p.run r'.acc = res at hstep ⊢
  have hbefore : ∀ {r'' : Regs}, r'.Ends r'' .ok → r.Ends r'' .ok := by
    intro r'' hends
    cases hends with
    | full h hm => exact .full h hm
    | starved h hm => exact .starved h hm
    | block hm => exact .block hm
  cases res with
  | leave acc =>
    obtain ⟨hgood, hf', hends⟩ := hstep
    exact ⟨hgood, hf.trans hf', hbefore hends⟩
  | done st acc =>
    dsimp only at hstep ⊢
    split at hstep
    · next hflush =>
      obtain ⟨hgood, hf', hends⟩ := hstep
      rw [if_pos hflush]
      exact ⟨hgood, hf.trans hf', hbefore hends⟩
    · next hflush =>
      obtain ⟨hgood, hf', hlt, hnext⟩ := hstep
      rw [if_neg hflush]
      rw [hm] at hnext
      exact ⟨hgood, hf.trans hf', hlt.trans_le hle, hnext⟩

theorem caseStored_runStream (s : InflateState) {v : BitStream} :
    s.caseStored.runStream 0 v = none ↔ v.len < 32 := by
  simp only [InflateState.caseStored, needBits, hold, initBits, pure_eq, ret_bind, need_bind, whole_bind,
    empty_bind, runStream, runStream_ite]
  split
  · next h =>
    split <;> simp [h]
  · next h => simpa using h

theorem caseStored_good (h : r.Good past start) (hm : r.st.mode = .stored) :
    r.StepGood past start
      ({ r with acc := r.acc.drop (r.acc.bits % 8) }.runCase flush r.st.caseStored) := by
  have hbits := h.bits
  simp only [InflateState.BitsOk, hm] at hbits
  have hprog : r.st.prog = some r.st.caseStored := by
    unfold InflateState.prog
    rw [hm]
  have hdrop : (r.acc.drop (r.acc.bits % 8)).bits = r.acc.bits - r.acc.bits % 8 := rfl
  -- the pass goes on from the byte boundary
  have h' : Good past start { r with acc := r.acc.drop (r.acc.bits % 8) } := by
    refine { h with bits := ?_ }
    simp only [InflateState.BitsOk, hm, hdrop]
    omega
  have hlazy : r.Lazy → Lazy { r with acc := r.acc.drop (r.acc.bits % 8) } := by
    rintro (hl | hl | ⟨p, hp, hstuck⟩)
    · left
      dsimp only
      omega
    · exact .inr (.inl hl)
    · rw [hprog] at hp
      obtain rfl := Option.some.inj hp
      refine .inr (.inr ⟨_, hprog, (caseStored_runStream _).mpr ?_⟩)
      have := (caseStored_runStream _).mp hstuck
      simp only [BitReader.held_len] at this ⊢
      omega
  have hfollows : r.Follows { r with acc := r.acc.drop (r.acc.bits % 8) } :=
    ⟨rfl, rfl, le_rfl, rfl, rfl, fun _ => rfl, id, id, le_rfl, hlazy⟩
  have hmeasure : measure { r with acc := r.acc.drop (r.acc.bits % 8) } ≤ r.measure := by
    simp only [measure, BitReader.drop_have, hdrop]
    omega
  have hstep : StepGood past start _ (runCase flush _ r.st.caseStored) := h'.runCase
    (InflateState.caseStored_wp hm (by dsimp only; omega)) (InflateState.caseStored_agree hm rfl)
    (by rw [hm]; decide) (by rw [hm]; decide) hprog fun s' v' hrun => by
      dsimp only
      rw [hm]
      exact takes_spec InflateState.caseStored_takes le_rfl (Nat.zero_le _) hrun
  exact hstep.before hfollows hmeasure rfl

theorem caseCopy_good (h : r.Good past start) (hm : r.st.mode = .copy) :
    r.StepGood past start r.caseCopy := by
  have hbits := h.bits
  simp only [InflateState.BitsOk, hm] at hbits
  have hphase : r.st.mode.phase = 1 := by rw [hm]; rfl
  have hprog : r.st.prog = none := by
    unfold InflateState.prog InflateState.bitCase
    rw [hm]
  unfold caseCopy
  split
  · dsimp only
    split
    · -- no input or no space
      next h0 =>
      by_cases hleft : r.left = 0
      · exact ⟨h, .refl r, .full hleft (.inl hm)⟩
      · refine ⟨h, .refl r, .starved (by omega) ?_⟩
        rw [hm]
        decide
    · next h0 =>
      have hk : BlockKeeps r.st { r.st with
          length := r.st.length - min (min r.st.length r.acc.have_) r.left } :=
        ⟨.inl hphase, rfl, rfl, rfl⟩
      refine ⟨h.block hphase hk ?_ ?_ ?_ (Nat.sub_le ..), .block hphase hk rfl ?_ (Nat.sub_le ..) ?_, ?_,
        follows_block hphase hk.phase⟩
      · simp only [InflateState.Ok, hm]
      · simp only [InflateState.BitsOk, hm]
        exact hbits
      · simp only [List.length_append, List.length_reverse, length_bytesAt]
        omega
      · simp only [BitReader.advance]
        omega
      · intro _
        simp only [BitReader.advance]
        omega
      · simp only [measure, BitReader.advance]
        omega
  · exact h.move hphase hprog ⟨.inl rfl, rfl, rfl, rfl⟩ trivial
      (show r.acc.bits ≤ 32 by omega) rfl le_rfl
      (.inr (by rw [hm]; exact (by decide : rank .type < rank .copy)))

theorem matched_good (h : r.Good past start) (hm : r.st.mode = .match_) {copy : Nat}
    {out : List UInt8} (hpos : 0 < copy) (hlen : copy ≤ r.st.length) (hleft : copy ≤ r.left)
    (hout : out.length = copy + r.out.length) : r.StepGood past start (r.matched copy out) := by
  have hok := h.ok
  have hbits := h.bits
  simp only [InflateState.Ok, InflateState.BitsOk, hm] at hok hbits
  have hphase : r.st.mode.phase = 1 := by rw [hm]; rfl
  have hprog : r.st.prog = none := by
    unfold InflateState.prog InflateState.bitCase
    rw [hm]
  obtain ⟨ht, hlength, hoffset⟩ := hok
  have ht' : ∀ l m, TablesOk { r.st with length := l, mode := m } := fun _ _ =>
    ⟨ht.len, ht.lenbits, ht.dist, ht.distbits⟩
  unfold matched
  dsimp only
  by_cases h0 : r.st.length - copy = 0
  · rw [if_pos h0]
    exact h.move hphase hprog ⟨.inl rfl, rfl, rfl, rfl⟩ (ht' _ _) hbits (by omega) (Nat.sub_le ..)
      (.inl (by omega))
  · rw [if_neg h0]
    refine h.move hphase hprog ⟨.inl hphase, rfl, rfl, rfl⟩ ?_ ?_ (by omega) (Nat.sub_le ..)
      (.inl (by omega))
    · simp only [InflateState.Ok, hm]
      exact ⟨ht' _ _, by omega, hoffset⟩
    · simp only [InflateState.BitsOk, hm]
      exact hbits

theorem caseMatch_good (h : r.Good past start) (hm : r.st.mode = .match_) :
    r.StepGood past start r.caseMatch := by
  have hok := h.ok
  simp only [InflateState.Ok, hm] at hok
  obtain ⟨-, hlength, hoffset⟩ := hok
  have hphase : r.st.mode.phase = 1 := by rw [hm]; rfl
  have hprog : r.st.prog = none := by
    unfold InflateState.prog InflateState.bitCase
    rw [hm]
  have hwhave := h.whave
  unfold caseMatch
  split
  · next hleft => exact ⟨h, .refl r, .full hleft (.inr (.inl hm))⟩
  · dsimp only
    split
    · next hfar =>
      split
      · -- too far back
        exact h.move hphase hprog ⟨.inr rfl, rfl, rfl, rfl⟩ trivial trivial rfl le_rfl
          (.inr (by rw [hm]; exact (by decide : rank .bad < rank .match_)))
      · split
        · apply matched_good h hm
          · omega
          · omega
          · omega
          · rw [length_copyWindow]
        · apply matched_good h hm
          · omega
          · omega
          · omega
          · rw [length_copyWindow]
    · apply matched_good h hm
      · omega
      · omega
      · omega
      · rw [length_copyMatch]

theorem caseLit_good (h : r.Good past start) (hm : r.st.mode = .lit) :
    r.StepGood past start r.caseLit := by
  have hok := h.ok
  have hbits := h.bits
  simp only [InflateState.Ok, InflateState.BitsOk, hm] at hok hbits
  obtain ⟨ht, -⟩ := hok
  have hphase : r.st.mode.phase = 1 := by rw [hm]; rfl
  have hprog : r.st.prog = none := by
    unfold InflateState.prog InflateState.bitCase
    rw [hm]
  unfold caseLit
  split
  · next hleft => exact ⟨h, .refl r, .full hleft (.inr (.inr hm))⟩
  · refine h.move hphase hprog ⟨.inl rfl, rfl, rfl, rfl⟩ ⟨ht.len, ht.lenbits, ht.dist, ht.distbits⟩
      hbits ?_ (Nat.sub_le ..) (.inl (by omega))
    rw [List.length_cons]
    omega

theorem caseLenSlow_good (h : r.Good past start) (hm : r.st.mode = .len) :
    r.StepGood past start (r.caseLenSlow flush) := by
  have hok := h.ok
  simp only [InflateState.Ok, hm] at hok
  have hcase : { r.st with back := 0 }.bitCase = some r.st.caseLen := by
    unfold InflateState.bitCase
    dsimp only
    rw [hm]
    rfl
  have hcase' : r.st.bitCase = some r.st.caseLen := by
    unfold InflateState.bitCase
    rw [hm]
  have h' : Good past start { r with st := { r.st with back := 0 } } := by
    refine { h with ok := ?_, bits := ?_ }
    · simp only [InflateState.Ok, hm]
      exact ⟨hok.len, hok.lenbits, hok.dist, hok.distbits⟩
    · exact h.bits
  have hprog : { r.st with back := 0 }.prog = r.st.prog := by
    rw [(bitCase_mode hcase').2.2, (bitCase_mode hcase).2.2]
  have hfollows : r.Follows { r with st := { r.st with back := 0 } } := by
    refine ⟨rfl, rfl, le_rfl, rfl, rfl, fun _ => rfl, id, id, le_rfl, ?_⟩
    rintro (hl | hl | ⟨p, hp, hstuck⟩)
    · exact .inl hl
    · exact .inr (.inl hl)
    · exact .inr (.inr ⟨p, hprog.trans hp, hstuck⟩)
  have hstep : StepGood past start _ (runCase flush _ _) := h'.bitCase hcase
  exact hstep.before hfollows le_rfl rfl

/-- A pass of the slow states. -/
theorem slowStep_good (flush : Flush) (h : r.Good past start) (hm : r.st.mode.inSymbol = true) :
    r.StepGood past start (r.slowStep flush) := by
  have hcode : ∀ {p}, r.st.bitCase = some p → r.StepGood past start (r.runCase flush p) :=
    fun hp => h.bitCase hp
  unfold InflateState.bitCase at hcode
  unfold slowStep step
  split
  · next hlen => exact caseLenSlow_good h hlen
  · next hlen =>
    generalize hmode : r.st.mode = m at hm hlen hcode
    cases m <;> simp only [Mode.inSymbol, Bool.false_eq_true] at hm
    case len => exact absurd rfl hlen
    case lenext => exact hcode rfl
    case dist => exact hcode rfl
    case distext => exact hcode rfl
    case match_ => exact caseMatch_good h hmode
    case lit => exact caseLit_good h hmode

theorem Good.slowSteps {r' : Regs} (h : r.Good past start) (hs : SlowSteps flush r r') :
    r'.Good past start := by
  induction hs with
  | refl => exact h
  | tail _ hstep ih =>
    have hgood := slowStep_good flush ih hstep.1
    rw [hstep.2] at hgood
    exact hgood.1

/-- At `LEN` the bits held are fewer than eight, or a code longer than them begins with them. -/
theorem Lazy.len (h : r.Lazy) (hm : r.st.mode = .len) (ht : TablesOk r.st) : r.st.Lazy r.acc := by
  rcases h with h | h | ⟨p, hp, hstuck⟩
  · exact .inl h
  · rw [hm] at h
    cases h
  · have hcase : r.st.prog = some r.st.caseLen := by
      unfold InflateState.prog InflateState.bitCase
      rw [hm]
    rw [hcase] at hp
    obtain rfl := Option.some.inj hp
    rw [InflateState.caseLen_runStream ht] at hstuck
    split at hstuck
    · cases hstuck
    · next hlt => exact .inr (Nat.lt_of_not_le hlt)

/-- Symbols change nothing that the accounts depend on. -/
theorem Stops.keeps {s s' : InflateState} {h : List UInt8} {room n : Nat} {v : BitStream}
    (hs : Stops s h room v n s') : BlockKeeps s s' := by
  cases hs with
  | endBlock | handOver => exact ⟨.inl rfl, rfl, rfl, rfl⟩
  | badLen | badDist | tooFar => exact ⟨.inr rfl, rfl, rfl, rfl⟩

theorem Stops.ok {s s' t : InflateState} {h : List UInt8} {room n : Nat} {v : BitStream}
    (hs : Stops s h room v n s') (ht : TablesOk s) (hend : SameEnd s' t) (hok : t.Ok) : s'.Ok := by
  cases hs with
  | endBlock | badLen | badDist | tooFar => exact trivial
  | handOver hread hroom =>
    obtain ⟨hmode, -, hpending⟩ := hend
    obtain ⟨hlength, hoffset⟩ := hpending rfl
    simp only [InflateState.Ok, hmode] at hok
    rw [hlength, hoffset] at hok
    exact ⟨⟨ht.len, ht.lenbits, ht.dist, ht.distbits⟩, hok.2⟩

theorem Stops.bits {s s' : InflateState} {h : List UInt8} {room n b : Nat} {v : BitStream}
    (hs : Stops s h room v n s') (hb : b < 8) : s'.BitsOk b := by
  cases hs with
  | endBlock | handOver => exact (show _ ≤ 32 by omega)
  | badLen | badDist | tooFar => exact trivial

theorem enterFast_good (h : r.Good past start) (hl : r.Lazy) (hm : r.st.mode = .len)
    (hroom : inflateFastMinHave ≤ r.acc.have_ ∧ inflateFastMinSafe ≤ r.left) :
    r.StepGood past start r.enterFast := by
  have hok := h.ok
  have hbits := h.bits
  simp only [InflateState.Ok, InflateState.BitsOk, hm] at hok hbits
  have hphase : r.st.mode.phase = 1 := by rw [hm]; rfl
  have hmark : r.mark = r.left + r.out.length := h.early (by omega)
  obtain ⟨c, hf⟩ := inflateFast_spec (decide (r.left < inflateFastMinLeft)) hok h.whave
    (show r.acc.bits < 64 by omega) hroom.1 hroom.2 (by simp) hmark.symm
  obtain ⟨r', hsteps, hout, hleft, -, hend⟩ := hf.slow .noFlush hm hok hbits h.whave hmark
  have hgood := h.slowSteps hsteps
  unfold enterFast
  dsimp only
  generalize inflateFast (decide (r.left < inflateFastMinLeft)) r.acc.mem (fun _ i => r.st.window i)
    r.mark r.st r.acc.next r.acc.have_ r.out r.left r.acc.hold r.acc.bits = f at hf hout hleft hend ⊢
  obtain ⟨hc, hsize⟩ := hf.size
  obtain ⟨hnext, hends, havail, hfbits, hstream⟩ := hf.rewind (by
    have := (hl.len hm hok).lt hok
    omega)
  have hspace := hf.space
  have hlen := congrArg BitStream.len hstream
  rw [BitReader.stream_len, BitStream.drop_len, BitReader.stream_len] at hlen
  have hle := hf.le
  rw [BitReader.stream_len] at hle
  have hgrow : r.out.length ≤ f.out.length := by
    rcases hf.symbols with ⟨-, hd⟩ | ⟨c₁, n, -, hd, -⟩
    · have := hd.length_le
      simp only [List.length_append] at this
      omega
    · have := hd.length_le
      simp only [List.length_append] at this
      omega
  have hkeeps : BlockKeeps r.st f.st := by
    rcases hf.symbols with ⟨hst, -⟩ | ⟨c₁, n, -, -, hs⟩
    · rw [hst]
      exact ⟨.inl hphase, rfl, rfl, rfl⟩
    · exact Stops.keeps hs
  have hfok : f.st.Ok := by
    rcases hf.symbols with ⟨hst, -⟩ | ⟨c₁, n, -, -, hs⟩
    · rw [hst]
      exact h.ok
    · exact Stops.ok hs hok hend hgood.ok
  have hfb : f.st.BitsOk (f.acc r.acc.mem).bits := by
    have hlt : (f.acc r.acc.mem).bits < 8 := hfbits
    rcases hf.symbols with ⟨hst, -⟩ | ⟨c₁, n, -, -, hs⟩
    · rw [hst]
      simp only [InflateState.BitsOk, hm]
      omega
    · exact Stops.bits hs hlt
  have hnextends : (f.acc r.acc.mem).next + (f.acc r.acc.mem).have_ = r.acc.next + r.acc.have_ := by
    simp only [FastResult.acc]
    omega
  have hhave : (f.acc r.acc.mem).have_ ≤ r.acc.have_ := by
    simp only [FastResult.acc]
    omega
  have hfinal : ∀ {s' : InflateState}, BlockKeeps r.st s' → s'.Ok → s'.BitsOk (f.acc r.acc.mem).bits →
      r.StepGood past start (.loop { r with
        st := s', acc := f.acc r.acc.mem, left := f.availOut, out := f.out }) := by
    intro s' hk hs' hb'
    refine ⟨h.block hphase hk hs' hb' hspace (by omega),
      .block hphase hk rfl hnextends hhave fun _ => hfbits, ?_, follows_block hphase hk.phase⟩
    have hrank : rank s'.mode < 13 := by cases s'.mode <;> decide
    have hrank' : 0 < 16 * c := by omega
    simp only [measure]
    omega
  split
  · next htype =>
    refine hfinal ⟨.inl (by dsimp only; rw [htype]; rfl), hkeeps.window, hkeeps.wbits, hkeeps.check⟩ ?_ ?_
    · simp only [InflateState.Ok, htype]
    · simp only [InflateState.BitsOk, htype] at hfb ⊢
      exact hfb
  · exact hfinal hkeeps hfok hfb

end Block

section Trailer

/-- The check value in the trailer, as it is compared. -/
def checkWord (s : InflateState) (v : BitStream) : Nat :=
  if s.flags ≠ 0 then v.peek 32 else zswap32 (v.peek 32)

theorem caseCheck_runStream (s : InflateState) (v : BitStream) :
    s.caseCheck.runStream 0 v =
      if s.wrap = 0 then some ({ s with mode := .length }, v)
      else if v.len < 32 then none
      else if s.wrap &&& 4 ≠ 0 ∧ checkWord s v ≠ s.check then
        some (s.setBad "incorrect data check", v)
      else some ({ s with mode := .length }, v.drop 32) := by
  simp only [InflateState.caseCheck, needBits, hold, initBits, pure_eq, ret_bind, need_bind, whole_bind,
    empty_bind, runStream, runStream_ite, checkWord]
  by_cases hw : s.wrap = 0
  · simp [hw]
  · rw [if_pos hw, if_neg hw]
    by_cases hv : v.len < 32
    · rw [if_neg (by omega), if_pos hv]
    · rw [if_pos (by omega), if_neg hv]
      rfl

theorem caseLength_runStream (s : InflateState) (v : BitStream) :
    s.caseLength.runStream 0 v =
      if s.wrap = 0 ∨ s.flags = 0 then some ({ s with mode := .done }, v)
      else if v.len < 32 then none
      else if s.wrap &&& 4 ≠ 0 ∧ v.peek 32 ≠ s.total % 2 ^ 32 then
        some (s.setBad "incorrect length check", v)
      else some ({ s with mode := .done }, v.drop 32) := by
  simp only [InflateState.caseLength, needBits, hold, initBits, pure_eq, ret_bind, need_bind, whole_bind,
    empty_bind, runStream, runStream_ite]
  by_cases hw : s.wrap = 0 ∨ s.flags = 0
  · rw [if_neg (by tauto), if_pos hw]
  · rw [if_pos (by tauto), if_neg hw]
    by_cases hv : v.len < 32
    · rw [if_neg (by omega), if_pos hv]
    · rw [if_pos (by omega), if_neg hv]
      rfl

theorem caseCheck_none (s : InflateState) (v : BitStream) :
    s.caseCheck.runStream 0 v = none ↔ s.wrap ≠ 0 ∧ v.len < 32 := by
  rw [caseCheck_runStream]
  split
  · next hw => simp [hw]
  · next hw =>
    split
    · next hv => simp [hw, hv]
    · next hv => split <;> simp [hv]

/-- Hashing on gives the check value of all the output. -/
theorem hash_checkOf {s : InflateState} {out past : List UInt8} (h : s.check = checkOf s past) :
    s.hash out.reverse = checkOf s (out ++ past) := by
  unfold checkOf hashOf at h ⊢
  unfold InflateState.hash
  rw [h, List.reverse_append]
  split
  · rw [crc32_append]
  · rw [adler32_append]

/-- Settling changes the accounts only. -/
theorem settle_eq (r : Regs) : ∃ c a, r.settle = { r.st with
    total := r.st.total + (r.mark - r.left), check := c, adler := a } := by
  unfold settle
  dsimp only
  split
  · exact ⟨_, _, rfl⟩
  · exact ⟨_, _, rfl⟩

/-- At the check value all the output is settled. -/
theorem Good.settle (h : r.Good past start) (hm : r.st.mode = .check) (hw : r.st.wrap &&& 4 ≠ 0) :
    r.settle.check = checkOf r.st (r.out ++ past) ∧ r.settle.total = (r.out ++ past).length := by
  obtain ⟨hcheck, htotal⟩ := h.check (.inr (by rw [hm]; rfl)) hw
  have hmark := h.early (by rw [hm]; decide)
  have hout : r.mark - r.left = r.out.length := by omega
  have hpending : r.pending = r.out.reverse := by
    rw [pending, hout, List.take_length]
  unfold Regs.settle
  dsimp only
  rw [hout, hpending]
  constructor
  · by_cases h0 : r.out.length = 0
    · rw [if_neg (by simp [h0]), List.length_eq_zero_iff.mp h0]
      exact hcheck
    · rw [if_pos ⟨hw, h0⟩, InflateState.infChksum_eq]
      exact hash_checkOf hcheck
  · rw [List.length_append, Nat.add_comm, ← htotal]
    split <;> rfl

theorem caseCheck_mode {s st : InflateState} {v v' : BitStream}
    (hs : s.caseCheck.runStream 0 v = some (st, v')) :
    st.mode = .length ∨ (st.mode = .bad ∧ s.wrap ≠ 0) := by
  rw [caseCheck_runStream] at hs
  split at hs
  · obtain ⟨rfl, -⟩ : _ ∧ _ := by simpa using hs
    exact .inl rfl
  · next hw =>
    split at hs
    · cases hs
    · split at hs
      · obtain ⟨rfl, -⟩ : _ ∧ _ := by simpa using hs
        exact .inr ⟨rfl, hw⟩
      · obtain ⟨rfl, -⟩ : _ ∧ _ := by simpa using hs
        exact .inl rfl

theorem prog_check (hm : r.st.mode = .check) : r.st.prog = some r.st.caseCheck := by
  unfold InflateState.prog
  rw [hm]

/-- Whether there are enough bits has nothing to do with the accounts. -/
theorem settle_none (r : Regs) (v : BitStream) :
    r.settle.caseCheck.runStream 0 v = none ↔ r.st.caseCheck.runStream 0 v = none := by
  obtain ⟨c, a, heq⟩ := settle_eq r
  rw [caseCheck_none, caseCheck_none, heq]

theorem Lazy.caseCheck (hm : r.st.mode = .check) (hl : r.Lazy) :
    r.acc.bits < 8 ∨ r.settle.caseCheck.runStream 0 r.acc.held = none := by
  rcases hl with hl | hl | ⟨p, hp, hstuck⟩
  · exact .inl hl
  · rw [hm] at hl
    cases hl
  · rw [prog_check hm] at hp
    obtain rfl := Option.some.inj hp
    exact .inr ((settle_none r _).mpr hstuck)

theorem Good.caseCheck_ran (h : r.Good past start) (hm : r.st.mode = .check) :
    Ran r.settle r.acc r.settle.caseCheck (r.settle.caseCheck.run r.acc) := by
  obtain ⟨c, a, heq⟩ := settle_eq r
  have hbits := h.bits
  have hwp : r.settle.caseCheck.wp true r.acc.bits 0 r.settle.BitsOk Fine := by
    refine InflateState.caseCheck_wp (by rw [heq]; exact hm) ?_
    rw [heq]
    exact hbits
  exact run_ran hwp (InflateState.caseCheck_agree (by rw [heq]; exact hm) rfl fun _ => rfl)

/-- What the program of `CHECK` leaves where it is done. -/
structure Checked (r : Regs) (st : InflateState) (acc : BitReader) : Prop where
  mode : st.mode = .length ∨ (st.mode = .bad ∧ r.st.wrap ≠ 0)
  wrap : st.wrap = r.st.wrap
  flags : st.flags = r.st.flags
  window : (st.wsize, st.whave, st.wnext, st.window) =
    (r.st.wsize, r.st.whave, r.st.wnext, r.st.window)
  wbits : st.wbits = r.st.wbits
  check : st.check = r.settle.check
  total : st.total = r.settle.total
  ok : st.Ok
  bits : st.BitsOk acc.bits
  lazy : r.Lazy → st.mode = .bad ∨ acc.bits < 8
  mem : acc.mem = r.acc.mem
  ends : acc.next + acc.have_ = r.acc.next + r.acc.have_
  have_le : acc.have_ ≤ r.acc.have_
  len : acc.stream.len ≤ r.acc.stream.len

theorem Good.checked (h : r.Good past start) (hm : r.st.mode = .check) {st : InflateState}
    {acc : BitReader} (hrun : r.settle.caseCheck.run r.acc = .done st acc) : r.Checked st acc := by
  have hran := h.caseCheck_ran hm
  have hends := run_ends r.settle.caseCheck r.acc
  rw [hrun] at hran hends
  obtain ⟨hmem, hends, hhave⟩ := hends
  obtain ⟨hkeep, hok, hb, hlazy, hs⟩ := hran
  obtain ⟨c, a, heq⟩ := settle_eq r
  have hmode := caseCheck_mode hs
  have hcheck : r.settle.mode = .check := by
    rw [heq]
    exact hm
  obtain ⟨hkcheck, hkflags⟩ := hkeep.check (by rw [hcheck]; decide)
  refine ⟨?_, ?_, ?_, ?_, ?_, hkcheck, hkeep.total, hok, hb,
    fun hl => hlazy.imp_right fun hlazy => hlazy (hl.caseCheck hm), hmem, hends, hhave, ?_⟩
  · rw [heq] at hmode
    exact hmode
  · rw [hkeep.wrap, heq]
  · rw [hkflags, heq]
  · rw [hkeep.wsize, hkeep.whave, hkeep.wnext, hkeep.window, heq]
  · rw [hkeep.wbits (.inr (.inl (by rw [hcheck]; decide))), heq]
  · obtain ⟨m, -, hle⟩ := takes_spec InflateState.caseCheck_takes le_rfl (Nat.zero_le _) hs
    omega

namespace Checked
variable {st : InflateState} {acc : BitReader}

theorem phase (hc : r.Checked st acc) : st.mode.phase = 3 ∨ st.mode.phase = 5 := by
  rcases hc.mode with hmode | ⟨hmode, -⟩ <;> rw [hmode]
  · exact .inl rfl
  · exact .inr rfl

/-- The output is counted and hashed. -/
theorem counted (hc : r.Checked st acc) (h : r.Good past start) (hm : r.st.mode = .check) :
    r.StepGood past start (.loop { r with
      st := st, acc := acc, totalOut := r.totalOut + (r.mark - r.left), mark := r.left }) := by
  have hphase := hc.phase
  have hwindow := hc.window
  have hcounted := h.counted
  have hlen := hc.len
  rw [BitReader.stream_len, BitReader.stream_len] at hlen
  have hrank : rank st.mode < 4 := by
    rcases hc.mode with hmode | ⟨hmode, -⟩ <;> rw [hmode] <;> decide
  have hmode : st.mode ≠ .head ∧ st.mode ≠ .sync := by
    rcases hc.mode with hmode | ⟨hmode, -⟩ <;> rw [hmode] <;> decide
  refine ⟨⟨hc.ok, hc.bits, ?_, le_rfl, ?_, ?_, ?_, fun _ _ => rfl, ?_, ?_⟩,
    ⟨hc.mem, hc.ends, hc.have_le, hwindow, hc.wrap, fun _ => hc.wbits, fun hhead => absurd hhead hmode.1,
      fun hsync => absurd hsync hmode.2, ?_, fun hl => ?_⟩, ?_, ?_⟩
  · simp only [Prod.mk.injEq] at hwindow
    dsimp only
    rw [hwindow.1, hwindow.2.1]
    exact h.whave
  · dsimp only
    omega
  · intro h0
    dsimp only at h0
    omega
  · intro h2
    dsimp only at h2
    omega
  · intro h1
    dsimp only at h1
    omega
  · intro _ hw4
    dsimp only at hw4 ⊢
    rw [hc.wrap] at hw4
    rw [hc.check, hc.total, checkOf, hc.flags]
    exact h.settle hm hw4
  · rw [hm]
    exact (show 2 ≤ st.mode.phase by omega)
  · exact (hc.lazy hl).elim (fun hbad => .inr (.inl hbad)) .inl
  · have hfour : rank .check = 4 := rfl
    simp only [measure, hm]
    omega
  · rw [hm]
    rcases hc.mode with hmode | ⟨hmode, -⟩
    · exact (congrArg (Mode.follows .check) hmode).trans rfl
    · exact (congrArg (Mode.follows .check) hmode).trans rfl

/-- A raw stream has no check value. -/
theorem raw (hc : r.Checked st acc) (h : r.Good past start) (hm : r.st.mode = .check)
    (hw : r.st.wrap = 0) :
    r.StepGood past start (.loop { r with st := { r.st with mode := .length }, acc := acc }) := by
  have hw4 : ¬ r.st.wrap &&& 4 ≠ 0 := by
    rw [hw]
    decide
  have hmode : st.mode = .length := hc.mode.resolve_right fun hbad => hbad.2 hw
  have hbits := hc.bits
  simp only [InflateState.BitsOk, hmode] at hbits
  have hlen := hc.len
  rw [BitReader.stream_len, BitReader.stream_len] at hlen
  refine ⟨⟨trivial, ⟨hbits.1, fun hne => absurd hw hne⟩, h.whave, h.left, h.counted, by rintro ⟨⟩,
    fun h2 => absurd h2 (by decide : ¬ 3 ≤ 2), fun _ hne => absurd hw hne, by rintro (⟨⟨⟩⟩ | ⟨⟨⟩⟩),
    fun _ hne => absurd hne hw4⟩,
    ⟨hc.mem, hc.ends, hc.have_le, rfl, rfl, fun _ => rfl, by rintro ⟨⟩, by rintro ⟨⟩, ?_, fun hl => ?_⟩,
    ?_, by rw [hm]; rfl⟩
  · rw [hm]
    exact (by decide : 2 ≤ 3)
  · refine .inl ((hc.lazy hl).resolve_left fun hbad => ?_)
    rw [hmode] at hbad
    cases hbad
  · have hfour : rank .check = 4 := rfl
    have hthree : rank .length = 3 := rfl
    simp only [measure, hm]
    omega

end Checked

theorem caseCheck_good (h : r.Good past start) (hm : r.st.mode = .check) :
    r.StepGood past start r.caseCheck := by
  unfold Regs.caseCheck
  cases hrun : r.settle.caseCheck.run r.acc with
  | leave acc =>
    have hran := h.caseCheck_ran hm
    have hends := run_ends r.settle.caseCheck r.acc
    rw [hrun] at hran hends
    obtain ⟨hmem, hends, hhave⟩ := hends
    obtain ⟨hheld, hempty, hstuck, -⟩ := hran
    obtain ⟨c, a, heq⟩ := settle_eq r
    refine ⟨{ h with bits := ?_ }, ⟨hmem, hends, hhave, rfl, rfl, fun _ => rfl, id, id, le_rfl, fun _ =>
      .inr (.inr ⟨_, prog_check hm, (settle_none r _).mp hstuck⟩)⟩,
      .starved hempty (by dsimp only; rw [hm]; decide)⟩
    rw [heq] at hheld
    exact hheld
  | done st acc =>
    have hc := h.checked hm hrun
    dsimp only
    split
    · exact hc.counted h hm
    · next hw => exact hc.raw h hm (not_not.mp hw)

end Trailer

/-- A pass of the loop keeps the accounts. -/
theorem step_good (flush : Flush) (h : r.Good past start) (hl : r.Lazy) :
    r.StepGood past start (r.step flush) := by
  have hcase : ∀ {p}, r.st.bitCase = some p → r.StepGood past start (r.runCase flush p) :=
    fun hp => h.bitCase hp
  have hprog : ∀ {m}, r.st.mode = m → r.st.prog = { r.st with mode := m }.prog := by
    rintro m rfl
    rfl
  have hbits := h.bits
  unfold InflateState.bitCase at hcase
  unfold InflateState.BitsOk at hbits
  unfold step
  generalize hm : r.st.mode = m at hcase hbits
  cases m
  case extra => exact caseExtra_good h hm
  case name => exact caseName_good h hm
  case comment => exact caseComment_good h hm
  case dict => exact caseDict_good h hm
  case type =>
    dsimp only
    split
    · exact ⟨h, .refl r, .block (.inl hm)⟩
    · exact hcase rfl
  case stored => exact caseStored_good h hm
  case copy_ =>
    exact h.move (by rw [hm]; rfl) (hprog hm) ⟨.inl rfl, rfl, rfl, rfl⟩ trivial hbits rfl le_rfl
      (.inr (by rw [hm]; exact (by decide : rank .copy < rank .copy_)))
  case copy => exact caseCopy_good h hm
  case len_ =>
    have hok := h.ok
    simp only [InflateState.Ok, hm] at hok
    exact h.move (by rw [hm]; rfl) (hprog hm) ⟨.inl rfl, rfl, rfl, rfl⟩
      ⟨hok.len, hok.lenbits, hok.dist, hok.distbits⟩ hbits rfl le_rfl
      (.inr (by rw [hm]; exact (by decide : rank .len < rank .len_)))
  case len =>
    dsimp only
    split
    · next hroom => exact enterFast_good h hl hm hroom
    · exact caseLenSlow_good h hm
  case match_ => exact caseMatch_good h hm
  case lit => exact caseLit_good h hm
  case check => exact caseCheck_good h hm
  case done => exact ⟨h, .refl r, .streamEnd hm rfl⟩
  case bad => exact ⟨h, .refl r, .dataError hm rfl⟩
  case sync => exact ⟨rfl, .inr ⟨rfl, hm⟩⟩
  all_goals exact hcase rfl

/-- Passes of the loop. -/
def Passes (flush : Flush) : Regs → Regs → Prop :=
  Relation.ReflTransGen fun r r' => r.step flush = .loop r'

theorem Passes.good {r' : Regs} (hp : Passes flush r r') (h : r.Good past start) (hl : r.Lazy) :
    r'.Good past start ∧ r.Follows r' := by
  induction hp with
  | refl => exact ⟨h, .refl r⟩
  | tail _ hstep ih =>
    obtain ⟨hgood, hf⟩ := ih
    have hs := step_good flush hgood (hf.lazy hl)
    rw [hstep] at hs
    exact ⟨hs.1, hf.trans hs.2.1⟩

/-- The loop comes to an end, with a pass that leaves or returns. -/
theorem loop_passes (flush : Flush) (h : r.Good past start) (hl : r.Lazy) {fuel : Nat}
    (hfuel : r.measure < fuel) :
    ∃ r', Passes flush r r' ∧
      ((∃ code r'', r'.step flush = .leave code r'' ∧ r.loop flush fuel = some (true, code, r'')) ∨
        ∃ code r'', r'.step flush = .ret code r'' ∧ r.loop flush fuel = some (false, code, r'')) := by
  induction fuel generalizing r with
  | zero => omega
  | succ fuel ih =>
    have hs := step_good flush h hl
    unfold loop
    generalize hstep : r.step flush = ctl at hs ⊢
    cases ctl with
    | loop r₁ =>
      obtain ⟨hgood, hf, hlt⟩ := hs
      obtain ⟨r', hpasses, hend⟩ := ih hgood (hf.lazy hl) (by omega)
      exact ⟨r', .head hstep hpasses, hend⟩
    | leave code r₁ => exact ⟨r, .refl, .inl ⟨code, r₁, hstep, rfl⟩⟩
    | ret code r₁ => exact ⟨r, .refl, .inr ⟨code, r₁, hstep, rfl⟩⟩

end Regs
end ZlibNg
