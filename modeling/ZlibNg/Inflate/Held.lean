import ZlibNg.Bits.Bounded
import ZlibNg.Inflate.CodeSpec
import ZlibNg.Inflate.Session

/-! A bound on the bits that are held between calls, whatever bits `inflatePrime` has put in. -/
namespace ZlibNg
open BitProg

namespace InflateState
variable {s t : InflateState}

/-- What bounds the bits that the cases ask for. -/
def Narrow (s : InflateState) : Prop :=
  match s.mode with
  | .lenlens => s.nlen ≤ 286 ∧ s.ndist ≤ 30 ∧ s.ncode ≤ 19 ∧ s.have_ ≤ s.ncode ∧
      ∀ k < s.have_, s.lens (order.getD k 0) < 8
  | .codelens => s.nlen ≤ 286 ∧ s.ndist ≤ 30 ∧ CodesOk s
  | .len_ | .len | .lit | .dist | .match_ => TablesOk s
  | .lenext | .distext => TablesOk s ∧ s.extra ≤ 15
  | _ => True

/-- The fields that `Narrow` is about. -/
def narrowFields (s : InflateState) :=
  (s.mode, s.nlen, s.ndist, s.ncode, s.have_, s.lens, s.extra, s.lencode, s.lenbits, s.distcode,
    s.distbits)

theorem Narrow.congr (h : s.Narrow) (heq : t.narrowFields = s.narrowFields) : t.Narrow := by
  simp only [narrowFields, Prod.mk.injEq] at heq
  obtain ⟨h1, h2, h3, h4, h5, h6, h7, h8, h9, h10, h11⟩ := heq
  have htables (h : TablesOk s) : TablesOk t := by
    obtain ⟨ha, hb, hc, hd⟩ := h
    exact ⟨by rw [h8, h9]; exact ha, by rw [h9]; exact hb, by rw [h10, h11]; exact hc,
      by rw [h11]; exact hd⟩
  have hcodes (h : CodesOk s) : CodesOk t := by
    obtain ⟨ha, hb, hc⟩ := h
    exact ⟨by rw [h8, h9]; exact ha, by rw [h8, h9]; exact hb, by rw [h9]; exact hc⟩
  unfold Narrow at *
  rw [h1]
  split at h
  · rw [h2, h3, h4, h5, h6]
    exact h
  · rw [h2, h3]
    exact ⟨h.1, h.2.1, hcodes h.2.2⟩
  · exact htables h
  · exact htables h
  · exact htables h
  · exact htables h
  · exact htables h
  · rw [h7]
    exact ⟨htables h.1, h.2⟩
  · rw [h7]
    exact ⟨htables h.1, h.2⟩
  · trivial

/-- What holds of a state between calls in general suffices. -/
theorem Ok.narrow (h : s.Ok) : s.Narrow := by
  have hextra (hle : 2 ^ s.extra ≤ 32768) : s.extra ≤ 15 := by
    by_contra hge
    have := Nat.pow_le_pow_right (n := 2) (by decide) (show 16 ≤ s.extra by omega)
    omega
  cases hm : s.mode <;> simp only [Ok, Narrow, hm] at h ⊢
  case lenlens => exact h
  case codelens => exact h
  case len_ => exact h
  case len => exact h
  case lit => exact h.1
  case dist => exact h.1
  case match_ => exact h.1
  case lenext => exact ⟨h.1, hextra (by omega)⟩
  case distext => exact ⟨h.1, hextra (by omega)⟩

/-- The cases of the header and the trailer, which look at all bits that are held. -/
theorem caseHead_bounded : s.caseHead.Bounded 25 Narrow := by
  simp only [caseHead, needBits, hold, bits, initBits, dropBits, pure_eq, ret_bind, need_bind,
    whole_bind, peek_bind, skip_bind, empty_bind, bounded_ite, Bounded]
  refine ⟨fun _ => trivial, fun _ => ⟨by decide, fun w => ⟨fun _ => trivial, fun _ v _ =>
    ⟨fun _ => trivial, fun _ m _ => ⟨fun _ => trivial, fun _ l _ => ⟨fun _ => trivial,
    fun _ w' => ?_⟩⟩⟩⟩⟩⟩
  by_cases hw : w' &&& 0x200 ≠ 0 <;> simp [Narrow, hw]

theorem caseFlags_bounded : s.caseFlags.Bounded 25 Narrow := by
  simp only [caseFlags, needBits, hold, initBits, pure_eq, ret_bind, need_bind, whole_bind,
    empty_bind, bounded_ite, Bounded]
  exact ⟨by decide, fun w => ⟨fun _ => trivial, fun _ => ⟨fun _ => trivial, fun _ => trivial⟩⟩⟩

theorem caseTime_bounded : s.caseTime.Bounded 32 Narrow := by
  simp only [caseTime, needBits, hold, initBits, pure_eq, ret_bind, need_bind, whole_bind,
    empty_bind, Bounded]
  exact ⟨by decide, fun w => trivial⟩

theorem caseOs_bounded : s.caseOs.Bounded 25 Narrow := by
  simp only [caseOs, needBits, hold, initBits, pure_eq, ret_bind, need_bind, whole_bind,
    empty_bind, Bounded]
  exact ⟨by decide, fun w => trivial⟩

theorem caseExlen_bounded : s.caseExlen.Bounded 25 Narrow := by
  simp only [caseExlen, needBits, hold, initBits, pure_eq, ret_bind, need_bind, whole_bind,
    empty_bind, bounded_ite, Bounded]
  exact ⟨fun _ => ⟨by decide, fun w => trivial⟩, fun _ => trivial⟩

theorem caseHcrc_bounded : s.caseHcrc.Bounded 25 Narrow := by
  simp only [caseHcrc, needBits, hold, initBits, pure_eq, ret_bind, need_bind, whole_bind,
    empty_bind, bounded_ite, Bounded]
  exact ⟨fun _ => ⟨by decide, fun w => ⟨fun _ => trivial, fun _ => trivial⟩⟩, fun _ => trivial⟩

theorem caseDictid_bounded : s.caseDictid.Bounded 32 Narrow := by
  simp only [caseDictid, needBits, hold, initBits, pure_eq, ret_bind, need_bind, whole_bind,
    empty_bind, Bounded]
  exact ⟨by decide, fun w => trivial⟩

theorem caseStored_bounded : s.caseStored.Bounded 32 Narrow := by
  simp only [caseStored, needBits, hold, initBits, pure_eq, ret_bind, need_bind, whole_bind,
    empty_bind, bounded_ite, Bounded]
  exact ⟨by decide, fun w => ⟨fun _ => trivial, fun _ => trivial⟩⟩

theorem caseCheck_bounded : s.caseCheck.Bounded 32 Narrow := by
  simp only [caseCheck, needBits, hold, initBits, pure_eq, ret_bind, need_bind, whole_bind,
    empty_bind, bounded_ite, Bounded]
  exact ⟨fun _ => ⟨by decide, fun w => ⟨fun _ => trivial, fun _ => trivial⟩⟩, fun _ => trivial⟩

theorem caseLength_bounded : s.caseLength.Bounded 32 Narrow := by
  simp only [caseLength, needBits, hold, initBits, pure_eq, ret_bind, need_bind, whole_bind,
    empty_bind, bounded_ite, Bounded]
  exact ⟨fun _ => ⟨by decide, fun w => ⟨fun _ => trivial, fun _ => trivial⟩⟩, fun _ => trivial⟩

/-- The cases of a block. -/
theorem caseTypedo_bounded : s.caseTypedo.Bounded 25 Narrow := by
  simp only [caseTypedo, needBits, byteBits, bits, dropBits, pure_eq, ret_bind, need_bind,
    peek_bind, skip_bind, align_bind, bounded_ite, Bounded]
  refine ⟨fun _ => trivial, fun _ => ⟨by decide, fun l _ t _ => ⟨fun _ => trivial, fun _ =>
    ⟨fun _ => ?_, fun _ => ⟨fun _ => trivial, fun _ => trivial⟩⟩⟩⟩⟩
  have ht := fixedtables_ok { s with last := decide (l = 1) }
  exact ⟨ht.1, ht.2, ht.3, ht.4⟩

theorem caseTable_bounded : s.caseTable.Bounded 25 Narrow := by
  simp only [caseTable, needBits, bits, dropBits, pure_eq, ret_bind, need_bind, peek_bind,
    skip_bind, bounded_ite, Bounded]
  refine ⟨by decide, fun n hn d hd c hc => ⟨fun _ => trivial, fun h => ?_⟩⟩
  exact ⟨by dsimp only; omega, by dsimp only; omega, by dsimp only; omega, Nat.zero_le _,
    fun k hk => absurd hk (Nat.not_lt_zero k)⟩

theorem caseLenlens_bounded (hm : s.mode = .lenlens) (hs : s.Narrow) :
    s.caseLenlens.Bounded 25 Narrow := by
  have hs' : s.Ok := by
    simp only [Narrow, hm] at hs
    simp only [Ok, hm]
    exact hs
  have hwp := @caseLenlens_wp s 0 hm hs' (by simp [BitsOk, hm])
  unfold caseLenlens at hwp ⊢
  split at hwp
  · next hlt =>
    rw [if_pos hlt]
    simp only [needBits, bits, dropBits, pure_eq, ret_bind, need_bind, peek_bind, skip_bind,
      wp, Bounded] at hwp ⊢
    refine ⟨by decide, fun v hv => ?_⟩
    exact ((hwp.2.2 8 (by decide) (by decide) (by decide) (by decide)).2 v hv).2.2.1.narrow
  · next hge =>
    rw [if_neg hge]
    dsimp only at hwp ⊢
    split at hwp
    · exact trivial
    · exact hwp.1.narrow

theorem repeatLens_narrow (hm : s.mode = .codelens) (hs : s.Ok) (len copy : Nat) :
    (s.repeatLens len copy).Narrow :=
  (repeatLens_fine hm hs (Nat.zero_le 32) len copy).1.narrow

theorem caseCodelens_bounded (hm : s.mode = .codelens) (hs : s.Narrow) :
    s.caseCodelens.Bounded 25 Narrow := by
  have hok : s.Ok := by
    simp only [Narrow, hm] at hs
    simp only [Ok, hm]
    exact hs
  simp only [Narrow, hm] at hs
  obtain ⟨hnlen, hndist, hcodes⟩ := hs
  have hbits : ∀ v, (s.lencode (v % 2 ^ s.lenbits)).bits ≤ 7 := by
    intro v
    obtain ⟨l, -, hl, hc⟩ := hcodes.look v
    have := hcodes.lenbits
    have := hc.bits_eq.1
    omega
  simp only [caseCodelens, lookup, needBits, bits, dropBits, pure_eq, ret_bind, need_bind,
    peek_bind, skip_bind, find_bind, bounded_ite, Bounded]
  refine ⟨fun _ v => ⟨(hbits v).trans (by decide), ?_⟩,
    fun _ => (buildTables_fine hm hok (Nat.zero_le 32)).1.narrow⟩
  have hv := hbits v
  refine ⟨fun _ => ?_, fun _ => ⟨fun _ => ⟨by omega, fun _ => trivial, fun _ w _ =>
    repeatLens_narrow hm hok _ _⟩, fun _ => ⟨fun _ => ⟨by omega, fun w _ =>
    repeatLens_narrow hm hok _ _⟩, fun _ => ⟨by omega, fun w _ => repeatLens_narrow hm hok _ _⟩⟩⟩⟩
  simp only [Narrow, hm]
  exact ⟨hnlen, hndist, ⟨hcodes.1, hcodes.2, hcodes.3⟩⟩

section LookupCode
variable {P : Nat → Code → Prop} {link : Nat → Prop} [DecidablePred link] {entry : Nat → Code}
  {root : Nat}

theorem lookupCode_bounded (h : TwoLevel P entry root) (hr : root ≤ 15) (hP : LinkTest P link)
    {Q : Nat × Code → Prop} (hQ : ∀ c l, l ≤ 15 → P l c.2 → Q c) :
    (lookupCode link entry root).Bounded 32 Q := by
  simp only [lookupCode, lookup, lookupSub, dropBits, pure_eq, ret_bind, find_bind, skip_bind,
    Bounded, bounded_ite]
  intro v
  rcases h.select_cases hr hP.op v with ⟨-, l, hl1, hl, hp⟩ | ⟨curr, next, he, hc1, hc15, -⟩
  · have := hP.size l _ (by omega) hp
    exact ⟨by omega, fun hd => absurd hd (hP.direct l _ (by omega) hp),
      fun _ => hQ (0, _) l (by omega) hp⟩
  · have hcb := link_codeBits root next (show curr ≤ 15 by omega)
    simp only [he, hcb, (link_op (show curr ≤ 15 by omega)).2.1, mod_shift]
    obtain ⟨hlook, -⟩ := h.sub hr hP.op he hc1 (by omega)
    refine ⟨by omega, fun _ w => ?_, fun hd => absurd (hP.linked curr hc1 (by omega)) hd⟩
    obtain ⟨l, hl1, hl, hp⟩ := hlook (w / 2 ^ root)
    have := hP.size l _ (by omega) hp
    exact ⟨by omega, hQ (root, _) l (by omega) hp⟩

end LookupCode

theorem caseLen_bounded (hs : TablesOk s) : s.caseLen.Bounded 32 Narrow := by
  rw [caseLen_eq, bounded_map]
  exact lookupCode_bounded hs.len hs.lenbits_le lenLink fun c l hl hp =>
    (afterLen_fine hs hl hp (Nat.zero_le 32) _).1.narrow

theorem caseDist_bounded (hs : TablesOk s) : s.caseDist.Bounded 32 Narrow := by
  rw [caseDist_eq, bounded_map]
  refine lookupCode_bounded hs.dist hs.distbits_le distLink fun c l hl hp => ?_
  obtain ⟨size, here⟩ := c
  dsimp only at hp ⊢
  cases hp with
  | base extra val he hv hm =>
    rw [afterDist_base s hl]
    exact ⟨⟨hs.1, hs.2, hs.3, hs.4⟩, by dsimp only; omega⟩
  | invalid =>
    rw [afterDist_invalid]
    trivial

theorem caseLenext_bounded (hs : TablesOk s) (hx : s.extra ≤ 15) :
    s.caseLenext.Bounded 25 Narrow := by
  simp only [caseLenext, needBits, bits, dropBits, pure_eq, ret_bind, need_bind, peek_bind,
    skip_bind, bounded_ite, Bounded]
  exact ⟨fun _ => ⟨by omega, fun v _ => ⟨hs.1, hs.2, hs.3, hs.4⟩⟩,
    fun _ => ⟨hs.1, hs.2, hs.3, hs.4⟩⟩

theorem caseDistext_bounded (hs : TablesOk s) (hx : s.extra ≤ 15) :
    s.caseDistext.Bounded 25 Narrow := by
  simp only [caseDistext, needBits, bits, dropBits, pure_eq, ret_bind, need_bind, peek_bind,
    skip_bind, bounded_ite, Bounded]
  exact ⟨fun _ => ⟨by omega, fun v _ => ⟨hs.1, hs.2, hs.3, hs.4⟩⟩,
    fun _ => ⟨hs.1, hs.2, hs.3, hs.4⟩⟩

/-- The bits that the case of a mode asks for at a time, at most. -/
def asks : Mode → Nat
  | .time | .dictid | .len | .dist | .length => 32
  | _ => 25

theorem asks_le (m : Mode) : asks m ≤ 32 := by cases m <;> decide

/-- Every case asks for no more bits than its mode does. -/
theorem bitCase_bounded {p : CaseProg} (hp : s.bitCase = some p) (hs : s.Narrow) :
    p.Bounded (asks s.mode) Narrow := by
  unfold bitCase at hp
  split at hp <;> simp only [Option.some.injEq, reduceCtorEq] at hp <;> subst hp
  case h_1 hm =>
    rw [hm]
    exact caseHead_bounded
  case h_2 hm =>
    rw [hm]
    exact caseFlags_bounded
  case h_3 hm =>
    rw [hm]
    exact caseTime_bounded
  case h_4 hm =>
    rw [hm]
    exact caseOs_bounded
  case h_5 hm =>
    rw [hm]
    exact caseExlen_bounded
  case h_6 hm =>
    rw [hm]
    exact caseHcrc_bounded
  case h_7 hm =>
    rw [hm]
    exact caseDictid_bounded
  case h_8 hm =>
    rw [hm]
    exact caseTypedo_bounded
  case h_9 hm =>
    rw [hm]
    exact caseTypedo_bounded
  case h_10 hm =>
    rw [hm]
    exact caseTable_bounded
  case h_11 hm =>
    rw [hm]
    exact caseLenlens_bounded hm hs
  case h_12 hm =>
    rw [hm]
    exact caseCodelens_bounded hm hs
  case h_13 hm =>
    simp only [Narrow, hm] at hs
    rw [hm]
    exact caseLen_bounded hs
  case h_14 hm =>
    simp only [Narrow, hm] at hs
    rw [hm]
    exact caseLenext_bounded hs.1 hs.2
  case h_15 hm =>
    simp only [Narrow, hm] at hs
    rw [hm]
    exact caseDist_bounded hs
  case h_16 hm =>
    simp only [Narrow, hm] at hs
    rw [hm]
    exact caseDistext_bounded hs.1 hs.2
  case h_17 hm =>
    rw [hm]
    exact caseLength_bounded

end InflateState

namespace FastRegs
variable {e : FastEnv} {r : FastRegs} {st : InflateState}

/-- The tables stay, and `inflate_fast` stops in a mode of its own. -/
def Stays (st : InflateState) (t : InflateState) : Prop :=
  (t.lencode, t.lenbits, t.distcode, t.distbits) = (st.lencode, st.lenbits, st.distcode, st.distbits) ∧
    (t.mode = st.mode ∨ t.mode = .bad ∨ t.mode = .type ∨ t.mode = .match_)

/-- The state after an iteration. -/
def Iter.state : Iter → InflateState
  | .next r => r.st
  | .stop r => r.st

theorem matchTo_stays {len dist : Nat} (h : Stays st r.st) : Stays st (matchTo e len dist r).state := by
  unfold matchTo
  split
  · exact ⟨h.1, .inr (.inr (.inr rfl))⟩
  · split
    · exact ⟨h.1, .inr (.inl rfl)⟩
    · exact h

theorem dodist_stays {len fuel : Nat} {here : Code} (h : Stays st r.st) :
    Stays st (dodist e len fuel here r).state := by
  induction fuel generalizing here r with
  | zero => exact h
  | succ fuel ih =>
    unfold dodist
    dsimp only
    split
    · exact matchTo_stays h
    · split
      · exact ih h
      · exact ⟨h.1, .inr (.inl rfl)⟩

theorem doop_stays {old : Nat} {here : Code} {dolen : Code → FastRegs → Iter}
    (hdolen : ∀ here r, Stays st r.st → Stays st (dolen here r).state) (h : Stays st r.st) :
    Stays st (doop e old here r dolen).state := by
  unfold doop
  dsimp only
  split
  · refine dodist_stays ?_
    split
    · exact h
    · exact h
  · split
    · exact hdolen _ _ h
    · split
      · exact ⟨h.1, .inr (.inr (.inl rfl))⟩
      · exact ⟨h.1, .inr (.inl rfl)⟩

theorem dolen_stays {fuel : Nat} {here : Code} (h : Stays st r.st) :
    Stays st (dolen e fuel here r).state := by
  induction fuel generalizing here r with
  | zero => exact h
  | succ fuel ih =>
    unfold dolen
    dsimp only
    split
    · exact h
    · exact doop_stays (fun _ _ => ih) h

theorem iteration_stays (h : Stays st r.st) : Stays st (r.iteration e).state := by
  have hdolen : ∀ here r, Stays st r.st → Stays st (dolen e 64 here r).state := fun _ _ => dolen_stays
  unfold iteration
  dsimp only
  split
  · split
    · exact dolen_stays h
    · exact doop_stays hdolen h
  · exact doop_stays hdolen h

theorem loop_stays {fuel : Nat} (h : Stays st r.st) : Stays st (r.loop e fuel).st := by
  induction fuel generalizing r with
  | zero => exact h
  | succ fuel ih =>
    have hstep := @iteration_stays e r st h
    unfold loop
    split
    · next hstop =>
      rw [hstop] at hstep
      exact hstep
    · next hnext =>
      rw [hnext] at hstep
      have hrest := ih hstep
      split
      · split
        · exact hrest
        · exact hstep
      · split
        · exact hrest
        · exact hstep

theorem finish_bits (e : FastEnv) (r : FastRegs) : (r.finish e).bits < 8 := by
  simp only [finish, Nat.shiftRight_eq_div_pow, Nat.shiftLeft_eq]
  omega

end FastRegs

namespace Regs
variable {r : Regs} {flush : Flush}

/-- A state in the loop, with no more bits than a case asks for at most. -/
def Narrow (r : Regs) : Prop := r.st.Narrow ∧ r.acc.bits < 40

/-- However a case ends. -/
def CtlNarrow : Ctl → Prop
  | .loop r => r.Narrow
  | .leave _ r => r.Narrow
  | .ret _ r => r.Narrow

theorem runCase_narrow {p : CaseProg} (hp : p.Bounded 32 InflateState.Narrow)
    (hst : r.st.Narrow) (hbits : r.acc.bits < 40) : CtlNarrow (r.runCase flush p) := by
  have hrun := hp.run (show r.acc.bits ≤ 32 + 7 by omega)
  unfold runCase
  split
  · next acc hleave =>
    rw [hleave] at hrun
    exact ⟨hst, Nat.lt_succ_of_le hrun⟩
  · next st acc hdone =>
    rw [hdone] at hrun
    dsimp only
    split
    · exact ⟨hrun.1, Nat.lt_succ_of_le hrun.2⟩
    · exact ⟨hrun.1, Nat.lt_succ_of_le hrun.2⟩

/-- In the modes of the header nothing is asked of the state. -/
theorem caseExtra_narrow (hm : r.st.mode = .extra) (hbits : r.acc.bits < 40) :
    CtlNarrow r.caseExtra := by
  have hdone (r : Regs) (hbits : r.acc.bits < 40) :
      CtlNarrow (.loop { r with st := { r.st with length := 0, mode := .name } }) := ⟨trivial, hbits⟩
  unfold caseExtra
  dsimp only
  split
  · split
    · split
      · refine ⟨?_, hbits⟩
        simp [InflateState.Narrow, InflateState.saveExtra, hm]
      · exact hdone _ hbits
    · split
      · refine ⟨?_, hbits⟩
        simp [InflateState.Narrow, hm]
      · exact hdone _ hbits
  · exact hdone _ hbits

theorem foldl_mode {save : InflateState → UInt8 → InflateState}
    (hsave : ∀ s b, (save s b).mode = s.mode) (bytes : List UInt8) (s : InflateState) :
    (bytes.foldl save s).mode = s.mode := by
  induction bytes generalizing s with
  | nil => rfl
  | cons b bytes ih => rw [List.foldl_cons, ih, hsave]

theorem scanString_narrow {save : InflateState → UInt8 → InflateState}
    {next : InflateState → InflateState} (hsave : ∀ s b, (save s b).mode = s.mode)
    (hnext : ∀ s, (next s).Narrow) (hm : r.st.mode = .name ∨ r.st.mode = .comment)
    (hbits : r.acc.bits < 40) : CtlNarrow (r.scanString save next) := by
  have hmode (bytes : List UInt8) (s : InflateState) (hs : s.mode = .name ∨ s.mode = .comment) :
      ((bytes.foldl save s).headerCheck bytes).Narrow := by
    have heq : ((bytes.foldl save s).headerCheck bytes).mode = s.mode := by
      rw [InflateState.headerCheck_mode, foldl_mode hsave]
    unfold InflateState.Narrow
    rw [heq]
    obtain hs | hs := hs <;> rw [hs] <;> trivial
  unfold scanString
  split
  · refine ⟨?_, hbits⟩
    unfold InflateState.Narrow
    obtain hm | hm := hm <;> rw [hm] <;> trivial
  · dsimp only
    split
    · exact ⟨hmode _ _ hm, hbits⟩
    · exact ⟨hnext _, hbits⟩

theorem saveName_mode (s : InflateState) (b : UInt8) : (s.saveName b).mode = s.mode := by
  unfold InflateState.saveName
  split
  · rfl
  · split
    · rfl
    · split <;> rfl

theorem saveComment_mode (s : InflateState) (b : UInt8) : (s.saveComment b).mode = s.mode := by
  unfold InflateState.saveComment
  split
  · rfl
  · split
    · rfl
    · split <;> rfl

theorem caseName_narrow (hm : r.st.mode = .name) (hbits : r.acc.bits < 40) :
    CtlNarrow r.caseName := by
  unfold caseName
  dsimp only
  split
  · exact scanString_narrow saveName_mode (fun _ => trivial) (.inl hm) hbits
  · exact ⟨trivial, hbits⟩

theorem caseComment_narrow (hm : r.st.mode = .comment) (hbits : r.acc.bits < 40) :
    CtlNarrow r.caseComment := by
  unfold caseComment
  dsimp only
  split
  · exact scanString_narrow saveComment_mode (fun _ => trivial) (.inr hm) hbits
  · exact ⟨trivial, hbits⟩

theorem caseDict_narrow (hm : r.st.mode = .dict) (hbits : r.acc.bits < 40) :
    CtlNarrow r.caseDict := by
  unfold caseDict
  split
  · exact ⟨trivial, hbits⟩
  · refine ⟨?_, hbits⟩
    simp [InflateState.Narrow, hm]

theorem caseCopy_narrow (hm : r.st.mode = .copy) (hbits : r.acc.bits < 40) :
    CtlNarrow r.caseCopy := by
  have hst (length : Nat) : ({ r.st with length := length } : InflateState).Narrow := by
    simp [InflateState.Narrow, hm]
  unfold caseCopy
  dsimp only
  split
  · split
    · exact ⟨hst r.st.length, hbits⟩
    · exact ⟨hst _, hbits⟩
  · exact ⟨trivial, hbits⟩

/-- In a block of codes the tables stay. -/
theorem tables_narrow {s t : InflateState} (h : TablesOk s)
    (heq : (t.lencode, t.lenbits, t.distcode, t.distbits) =
      (s.lencode, s.lenbits, s.distcode, s.distbits)) : TablesOk t := by
  simp only [Prod.mk.injEq] at heq
  obtain ⟨h1, h2, h3, h4⟩ := heq
  obtain ⟨ha, hb, hc, hd⟩ := h
  exact ⟨by rw [h1, h2]; exact ha, by rw [h2]; exact hb, by rw [h3, h4]; exact hc,
    by rw [h4]; exact hd⟩

theorem matched_narrow (hm : r.st.mode = .match_) (h : TablesOk r.st) (hbits : r.acc.bits < 40)
    (copy : Nat) (out : List UInt8) : CtlNarrow (r.matched copy out) := by
  have htables := tables_narrow h
    (t := { r.st with
      length := r.st.length - copy
      mode := if r.st.length - copy = 0 then .len else r.st.mode }) rfl
  refine ⟨?_, hbits⟩
  by_cases hzero : r.st.length - copy = 0 <;>
    simp only [InflateState.Narrow, hzero, if_true, if_false, hm] at htables ⊢ <;> exact htables

theorem caseMatch_narrow (hm : r.st.mode = .match_) (h : TablesOk r.st)
    (hbits : r.acc.bits < 40) : CtlNarrow r.caseMatch := by
  have hmatched (copy : Nat) (out : List UInt8) := matched_narrow hm h hbits copy out
  unfold caseMatch
  split
  · refine ⟨?_, hbits⟩
    simp only [InflateState.Narrow, hm]
    exact h
  · dsimp only
    split
    · split
      · exact ⟨trivial, hbits⟩
      · split
        · exact hmatched _ _
        · exact hmatched _ _
    · exact hmatched _ _

theorem caseLit_narrow (hm : r.st.mode = .lit) (h : TablesOk r.st) (hbits : r.acc.bits < 40) :
    CtlNarrow r.caseLit := by
  unfold caseLit
  split
  · refine ⟨?_, hbits⟩
    simp only [InflateState.Narrow, hm]
    exact h
  · exact ⟨tables_narrow h rfl, hbits⟩

theorem caseCheck_narrow (hm : r.st.mode = .check) (hbits : r.acc.bits < 40) :
    CtlNarrow r.caseCheck := by
  have hrun := (@InflateState.caseCheck_bounded r.settle).run (show r.acc.bits ≤ 32 + 7 by omega)
  unfold caseCheck
  split
  · next acc hleave =>
    rw [hleave] at hrun
    refine ⟨?_, Nat.lt_succ_of_le hrun⟩
    simp [InflateState.Narrow, hm]
  · next st acc hdone =>
    rw [hdone] at hrun
    split
    · exact ⟨hrun.1, Nat.lt_succ_of_le hrun.2⟩
    · exact ⟨trivial, Nat.lt_succ_of_le hrun.2⟩

theorem enterFast_narrow (hm : r.st.mode = .len) (h : TablesOk r.st) : CtlNarrow r.enterFast := by
  unfold enterFast
  dsimp only
  generalize hf : inflateFast _ _ _ _ _ _ _ _ _ _ _ = f
  have hbits : f.bits < 8 := by
    rw [← hf]
    exact FastRegs.finish_bits _ _
  have hstays : FastRegs.Stays r.st f.st := by
    rw [← hf]
    exact FastRegs.loop_stays ⟨rfl, .inl rfl⟩
  have htables := tables_narrow h hstays.1
  refine ⟨?_, show f.bits < 40 by omega⟩
  obtain hmode | hmode | hmode | hmode := hstays.2
  · rw [hm] at hmode
    simp only [hmode, reduceCtorEq, if_false, InflateState.Narrow]
    exact htables
  · simp [InflateState.Narrow, hmode]
  · simp [InflateState.Narrow, hmode]
  · simp only [hmode, reduceCtorEq, if_false, InflateState.Narrow]
    exact htables

/-- A pass of the loop. -/
theorem step_narrow (flush : Flush) (h : r.Narrow) : CtlNarrow (r.step flush) := by
  obtain ⟨hst, hbits⟩ := h
  have hcase {p : CaseProg} (hp : r.st.bitCase = some p) : CtlNarrow (r.runCase flush p) :=
    runCase_narrow ((InflateState.bitCase_bounded hp hst).mono (InflateState.asks_le _)) hst hbits
  have hst' := hst
  unfold InflateState.bitCase at hcase
  unfold InflateState.Narrow at hst'
  unfold step
  generalize hm : r.st.mode = m at hcase hst'
  cases m
  case extra => exact caseExtra_narrow hm hbits
  case name => exact caseName_narrow hm hbits
  case comment => exact caseComment_narrow hm hbits
  case dict => exact caseDict_narrow hm hbits
  case type =>
    dsimp only
    split
    · exact ⟨hst, hbits⟩
    · exact hcase rfl
  case stored =>
    exact runCase_narrow InflateState.caseStored_bounded hst
      ((Nat.sub_le _ _).trans_lt hbits)
  case copy_ => exact ⟨trivial, hbits⟩
  case copy => exact caseCopy_narrow hm hbits
  case len_ => exact ⟨tables_narrow hst' rfl, hbits⟩
  case len =>
    dsimp only
    split
    · exact enterFast_narrow hm hst'
    · have hlen : ({ r.st with back := 0 } : InflateState).Narrow := hst.congr rfl
      exact runCase_narrow (r := { r with st := { r.st with back := 0 } })
        (InflateState.caseLen_bounded hst') hlen hbits
  case match_ => exact caseMatch_narrow hm hst' hbits
  case lit => exact caseLit_narrow hm hst' hbits
  case check => exact caseCheck_narrow hm hbits
  case done => exact ⟨hst, hbits⟩
  case bad => exact ⟨hst, hbits⟩
  case sync => exact ⟨hst, hbits⟩
  all_goals exact hcase rfl

theorem loop_narrow {fuel : Nat} {goto : Bool} {ret : Ret} {r' : Regs} (h : r.Narrow)
    (hloop : loop flush fuel r = some (goto, ret, r')) : r'.Narrow := by
  induction fuel generalizing r with
  | zero => cases hloop
  | succ fuel ih =>
    have hstep := step_narrow flush h
    rw [loop] at hloop
    split at hloop
    · next r₁ hr =>
      rw [hr] at hstep
      exact ih hstep hloop
    · next ret₁ r₁ hr =>
      rw [hr] at hstep
      cases hloop
      exact hstep
    · next ret₁ r₁ hr =>
      rw [hr] at hstep
      cases hloop
      exact hstep

end Regs
namespace InflateState
variable {s : InflateState}

theorem infChksumCpy_fields (src : List UInt8) :
    (s.infChksumCpy src).narrowFields = s.narrowFields := by
  unfold infChksumCpy
  split <;> rfl

/-- The window and the check value are not among the fields. -/
theorem updatewindow_fields (data : List UInt8) (cksum : Bool) :
    (s.updatewindow data cksum).narrowFields = s.narrowFields := by
  have hcpy (s : InflateState) (src : List UInt8) :
      (if cksum then s.infChksumCpy src else s).narrowFields = s.narrowFields := by
    split
    · exact infChksumCpy_fields src
    · rfl
  have hwrite {t : InflateState} (window : Nat → UInt8) (wnext whave : Nat)
      (h : t.narrowFields = s.narrowFields) :
      ({ t with window := window, wnext := wnext, whave := whave } : InflateState).narrowFields =
        s.narrowFields := h
  have hopen : (if s.wsize = 0 then { s with wsize := 2 ^ s.wbits } else s).narrowFields =
      s.narrowFields := by
    split <;> rfl
  unfold updatewindow
  dsimp only
  generalize (if s.wsize = 0 then { s with wsize := 2 ^ s.wbits } else s) = t at hopen ⊢
  split
  · refine hwrite _ _ _ ?_
    split
    · split
      · exact (infChksumCpy_fields _).trans hopen
      · exact (infChksumCpy_fields _).trans hopen
    · exact hopen
  · split
    · refine hwrite _ _ _ ?_
      rw [hcpy]
      exact (hcpy t _).trans hopen
    · exact (hcpy t _).trans hopen

end InflateState

namespace InflateStream
variable {strm : InflateStream}

/-- A stream between calls, with no more bits held than a case asks for at most. -/
structure Narrow (strm : InflateStream) : Prop where
  state : strm.st.Narrow
  bits : strm.bits < 40

theorem Narrow.infLeave (flush : Flush) (ret : Ret) {r : Regs} (h : r.Narrow) :
    (strm.infLeave flush ret r).2.Narrow := by
  unfold InflateStream.infLeave
  extract_lets in_ out strm₁ s₀ s₁ s₂ strm₂
  have hs₁ : s₁.narrowFields = r.st.narrowFields := by
    dsimp only [s₁]
    split
    · exact InflateState.updatewindow_fields (s := r.st) _ _
    · rfl
  have hs₂ : s₂.narrowFields = r.st.narrowFields := hs₁
  split
  · have hs₃ (c : Prop) [Decidable c] (data : List UInt8) :
        (if c then s₂.infChksum data else s₂).narrowFields = r.st.narrowFields := by
      split
      · exact hs₂
      · exact hs₂
    exact ⟨h.1.congr (hs₃ _ _), h.2⟩
  · exact ⟨h.1.congr hs₂, h.2⟩

theorem Narrow.inflate {mem : Int → UInt8} {flush : Flush} {ret : Ret} {strm' : InflateStream}
    {out : List UInt8} (h : strm.Narrow) (hrun : strm.inflate mem flush = some (ret, strm', out)) :
    strm'.Narrow := by
  have hload : (strm.load mem).Narrow := by
    refine ⟨?_, h.bits⟩
    unfold load
    dsimp only
    split
    · trivial
    · exact h.state
  unfold InflateStream.inflate at hrun
  obtain ⟨⟨goto, ret₁, r⟩, hloop, heq⟩ := Option.map_eq_some_iff.mp hrun
  have hr := Regs.loop_narrow hload hloop
  cases goto with
  | true =>
    cases heq
    exact Narrow.infLeave flush ret₁ hr
  | false =>
    cases heq
    exact ⟨hr.1, hr.2⟩

theorem Narrow.inflateSetDictionary (h : strm.Narrow) (dictionary : List UInt8) :
    (strm.inflateSetDictionary dictionary).2.Narrow := by
  unfold InflateStream.inflateSetDictionary
  split
  · exact h
  · split
    · exact h
    · exact ⟨h.state.congr (InflateState.updatewindow_fields (s := strm.st) dictionary false),
        h.bits⟩

theorem Narrow.inflateReset : strm.inflateReset.Narrow := ⟨trivial, (by decide : 0 < 40)⟩

theorem Narrow.inflatePrime (h : strm.Narrow) {bits value : Int} {strm' : InflateStream}
    (hprime : strm.inflatePrime bits value = some strm') : strm'.Narrow := by
  unfold InflateStream.inflatePrime at hprime
  split at hprime
  · cases hprime
    exact h
  · split at hprime
    · cases hprime
      exact ⟨h.state, (by decide : 0 < 40)⟩
    · split at hprime
      · cases hprime
      · cases hprime
        exact ⟨h.state, by dsimp only; omega⟩

theorem Narrow.inflateSync (h : strm.Narrow) (mem : Int → UInt8) :
    (strm.inflateSync mem).2.Narrow := by
  have hsync : strm.syncStart.st.mode = .sync ∧ strm.syncStart.bits < 40 := by
    unfold syncStart
    split
    · exact ⟨‹_›, h.bits⟩
    · exact ⟨rfl, (by decide : 0 < 40)⟩
  unfold InflateStream.inflateSync
  split
  · exact h
  · dsimp only
    split
    · refine ⟨?_, hsync.2⟩
      unfold syncInput
      simp [InflateState.Narrow, hsync.1]
    · exact ⟨trivial, (by decide : 0 < 40)⟩

/-- The streams that calls lead to, `inflatePrime` among them. -/
inductive Reached : InflateStream → Prop
  | init {st : InflateState} {windowBits : Int} {strm : InflateStream}
      (h : inflateInit2 st windowBits = some strm) : Reached strm
  | feed {strm : InflateStream} (h : Reached strm) (nextIn : Int) (availIn availOut : Nat) :
      Reached { strm with nextIn := nextIn, availIn := availIn, availOut := availOut }
  | getHeader {strm : InflateStream} (h : Reached strm) (head : GzHeader) :
      Reached { strm with st := { strm.st with head := some head } }
  | inflate {strm strm' : InflateStream} {mem : Int → UInt8} {flush : Flush} {ret : Ret}
      {out : List UInt8} (h : Reached strm)
      (hrun : strm.inflate mem flush = some (ret, strm', out)) : Reached strm'
  | prime {strm strm' : InflateStream} {bits value : Int} (h : Reached strm)
      (hprime : strm.inflatePrime bits value = some strm') : Reached strm'
  | setDictionary {strm : InflateStream} (h : Reached strm) (dictionary : List UInt8) :
      Reached (strm.inflateSetDictionary dictionary).2
  | sync {strm : InflateStream} (h : Reached strm) (mem : Int → UInt8) :
      Reached (strm.inflateSync mem).2
  | reset {strm : InflateStream} (h : Reached strm) : Reached strm.inflateReset
  | reset2 {strm : InflateStream} (h : Reached strm) (wrap wbits : Nat) :
      Reached { strm with st := { strm.st with wrap := wrap, wbits := wbits } }.inflateReset
  | validate {strm : InflateStream} (h : Reached strm) (wrap : Nat) :
      Reached { strm with st := { strm.st with wrap := wrap } }

theorem Reached.narrow (h : strm.Reached) : strm.Narrow := by
  induction h with
  | init h =>
    unfold inflateInit2 at h
    obtain ⟨_, _, rfl⟩ := Option.map_eq_some_iff.mp h
    exact ⟨trivial, (by decide : 0 < 40)⟩
  | feed _ nextIn availIn availOut ih => exact ⟨ih.state, ih.bits⟩
  | getHeader _ head ih => exact ⟨ih.state.congr rfl, ih.bits⟩
  | inflate _ hrun ih => exact ih.inflate hrun
  | prime _ hprime ih => exact ih.inflatePrime hprime
  | setDictionary _ dictionary ih => exact ih.inflateSetDictionary dictionary
  | sync _ mem ih => exact ih.inflateSync mem
  | reset _ ih => exact .inflateReset
  | reset2 _ wrap wbits ih => exact .inflateReset
  | validate _ wrap ih => exact ⟨ih.state.congr rfl, ih.bits⟩

end InflateStream
end ZlibNg
