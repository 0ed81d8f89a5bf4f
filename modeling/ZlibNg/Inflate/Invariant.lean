import ZlibNg.Inflate.Return

/-! What holds of a stream after every call. -/
namespace ZlibNg
open BitProg

namespace InflateState

/-- The state with another window and other accounts. -/
abbrev accounts (s : InflateState) (havedict : Bool) (wsize whave wnext : Nat)
    (window : Nat → UInt8) (adler check total : Nat) : InflateState :=
  { s with
    havedict := havedict
    wsize := wsize, whave := whave, wnext := wnext, window := window, adler := adler
    check := check, total := total }

variable {s d : InflateState} {havedict : Bool} {wsize whave wnext : Nat} {window : Nat → UInt8}
  {adler check total : Nat}

theorem tablesOk_accounts : TablesOk (s.accounts havedict wsize whave wnext window adler check total) ↔
    TablesOk s := by
  constructor
  · intro h
    exact ⟨h.len, h.lenbits, h.dist, h.distbits⟩
  · intro h
    exact ⟨h.len, h.lenbits, h.dist, h.distbits⟩

theorem codesOk_accounts : CodesOk (s.accounts havedict wsize whave wnext window adler check total) ↔
    CodesOk s := by
  constructor
  · intro h
    exact ⟨h.look, h.stable, h.lenbits⟩
  · intro h
    exact ⟨h.look, h.stable, h.lenbits⟩

theorem Ok.accounts (h : s.Ok) : (s.accounts havedict wsize whave wnext window adler check total).Ok := by
  simp only [Ok, tablesOk_accounts, codesOk_accounts] at h ⊢
  exact h

/-- What further decoding depends on is left alone. -/
theorem accounts_live (h : s.mode.inHeader = true → check = s.check) :
    (s.accounts s.havedict wsize whave wnext window adler check total).live = s.live := by
  unfold live
  dsimp only
  cases hm : s.mode.inHeader with
  | false => rfl
  | true => rw [h hm]

theorem typedo_live (hm : s.mode = .type) : { s with mode := .typedo }.live = s.live := by
  unfold live
  rw [hm]
  rfl

theorem caseLength_none (v : BitStream) :
    s.caseLength.runStream 0 v = none ↔ ¬(s.wrap = 0 ∨ s.flags = 0) ∧ v.len < 32 := by
  rw [Regs.caseLength_runStream]
  split
  · next hw => simp [hw]
  · next hw =>
    split
    · next hv => simp [hw, hv]
    · next hv => split <;> simp [hv]

/-- A program that is stuck is stuck in another state, when that has the same programs. -/
theorem prog_stuck_of {v : BitStream} (hstored : s.mode = .stored → d.mode = .stored)
    (hcheck : s.mode = .check → d.mode = .check) (hwrap : s.wrap = d.wrap)
    (hcase : ∀ {p}, s.bitCase = some p →
      ∃ q, d.bitCase = some q ∧ (p.runStream 0 v = none → q.runStream 0 v = none))
    (hs : ∃ p, s.prog = some p ∧ p.runStream 0 v = none) :
    ∃ q, d.prog = some q ∧ q.runStream 0 v = none := by
  obtain ⟨p, hp, hstuck⟩ := hs
  unfold prog at hp
  split at hp
  · next hm =>
    obtain rfl := Option.some.inj hp
    have hd : d.prog = some d.caseStored := by
      unfold prog
      rw [hstored hm]
    exact ⟨_, hd, (Regs.caseStored_runStream d).mpr ((Regs.caseStored_runStream s).mp hstuck)⟩
  · next hm =>
    obtain rfl := Option.some.inj hp
    have hd : d.prog = some d.caseCheck := by
      unfold prog
      rw [hcheck hm]
    rw [Regs.caseCheck_none, hwrap] at hstuck
    exact ⟨_, hd, (Regs.caseCheck_none d v).mpr hstuck⟩
  · obtain ⟨q, hq, hnone⟩ := hcase hp
    exact ⟨q, (Regs.bitCase_mode hq).2.2, hnone hstuck⟩

theorem Agree.none {R : InflateState → InflateState → Prop} {p q : CaseProg} (h : Agree R p q)
    {v : BitStream} (hp : p.runStream 0 v = none) : q.runStream 0 v = none := by
  rcases agree_runStream h 0 v with ⟨-, hnone⟩ | ⟨a, b, v', ha, -, -⟩
  · exact hnone
  · rw [hp] at ha
    cases ha

/-- States that go on alike are stuck alike. -/
theorem prog_stuck (h : s.live = d.live) (hok : s.Ok) {v : BitStream}
    (hs : ∃ p, s.prog = some p ∧ p.runStream 0 v = none) :
    ∃ q, d.prog = some q ∧ q.runStream 0 v = none := by
  have hwrap : s.live.wrap = d.live.wrap := congrArg InflateState.wrap h
  have hflags : s.live.flags = d.live.flags := congrArg InflateState.flags h
  change s.wrap = d.wrap at hwrap
  change s.flags = d.flags at hflags
  refine prog_stuck_of (fun hm => mode_of_live h hm (by decide))
    (fun hm => mode_of_live h hm (by decide)) hwrap ?_ hs
  intro p hp
  by_cases hlength : s.mode = .length
  · have hd := mode_of_live h hlength (by decide)
    unfold bitCase at hp ⊢
    rw [hlength] at hp
    obtain rfl := Option.some.inj hp
    rw [hd]
    refine ⟨_, rfl, ?_⟩
    rw [caseLength_none, caseLength_none, hwrap, hflags]
    exact id
  · obtain ⟨q, hq, hagree⟩ := bitCase_agree h hok (fun hm => absurd hm hlength) hp
    exact ⟨q, hq, Agree.none hagree⟩

/-- Only `DICT` asks whether there is a dictionary. -/
theorem bitCase_havedict (b : Bool) {p : CaseProg} (hp : s.bitCase = some p) :
    ∃ q, { s with havedict := b }.bitCase = some q ∧ Agree (fun _ _ => True) p q := by
  cases s with
  | mk mode =>
    unfold bitCase at hp ⊢
    cases mode <;> simp only [reduceCtorEq, Option.some.injEq] at hp <;> subst hp <;>
      refine ⟨_, rfl, ?_⟩
    all_goals simp only [caseHead, caseFlags, caseTime, caseOs, caseExlen, caseHcrc, caseDictid,
      caseTypedo, caseTable, caseLenlens, caseCodelens, caseLen, caseLenext, caseDist, caseDistext,
      caseLength, needBits, hold, bits, initBits, dropBits, byteBits, pure_eq, ret_bind, need_bind,
      whole_bind, peek_bind, skip_bind, empty_bind, align_bind, find_bind, lookup, lookupSub, Agree,
      agree_ite, true_and, implies_true, and_self]
    -- what remains is the table of code length codes
    split <;> exact fun _ => trivial

theorem prog_havedict (b : Bool) {v : BitStream}
    (hs : ∃ p, s.prog = some p ∧ p.runStream 0 v = none) :
    ∃ q, { s with havedict := b }.prog = some q ∧ q.runStream 0 v = none := by
  refine prog_stuck_of (s := s) (d := { s with havedict := b }) id id rfl ?_ hs
  intro p hp
  obtain ⟨q, hq, hagree⟩ := bitCase_havedict b hp
  exact ⟨q, hq, Agree.none hagree⟩

end InflateState

/-- The window holds the newest bytes of the history, up to the end of the blocks; before the
window bits are known there is none. -/
structure Windowed (s : InflateState) (hist : List UInt8) : Prop where
  seen : ∃ h, WindowOk s h ∧ (s.mode.phase ≤ 1 → h = hist)
  unopened : s.mode = .head → s.wrap ≠ 0 → s.wsize = 0

theorem Windowed.bounds {s : InflateState} {hist : List UInt8} (h : Windowed s hist) :
    s.whave ≤ s.wsize ∧ s.wnext ≤ s.wsize := by
  obtain ⟨⟨hist', hw, -⟩, -⟩ := h
  have hnext := hw.next
  exact ⟨hw.whave_le.1, by omega⟩

/-- Before the end of the blocks. -/
theorem Windowed.ok {s : InflateState} {hist : List UInt8} (h : Windowed s hist)
    (hp : s.mode.phase ≤ 1) : WindowOk s hist := by
  obtain ⟨⟨hist', hw, heq⟩, -⟩ := h
  rw [← heq hp]
  exact hw

/-- The passes of the loop leave the window alone. -/
theorem Windowed.follows {r r' : Regs} {hist : List UInt8} (h : Windowed r.st hist)
    (hf : r.Follows r') : Windowed r'.st hist := by
  obtain ⟨⟨hist', hw, heq⟩, hunopened⟩ := h
  have hwindow := hf.window
  simp only [Prod.mk.injEq] at hwindow
  obtain ⟨h1, h2, h3, h4⟩ := hwindow
  refine ⟨⟨hist', ?_, fun hp => heq (hf.phase.trans hp)⟩, fun hm hne => ?_⟩
  · by_cases hhead : r.st.mode ≠ .head ∨ r.st.wrap = 0
    · exact hw.congr (by rw [h1, h2, h3, h4, hf.wbits hhead])
    · have h0 : r.st.wsize = 0 := hunopened (by tauto) (by tauto)
      have hsame := @WindowOk.congr _ { r'.st with wbits := r.st.wbits } _ hw (by
        dsimp only
        rw [h1, h2, h3, h4])
      exact ⟨hsame.hist, .inl (h1.trans h0), hsame.next, hsame.wrapped, hsame.all⟩
  · rw [h1]
    exact hunopened (hf.head hm) (by rw [← hf.wrap]; exact hne)

/-- What `inf_leave` leaves of the window. -/
theorem Windowed.leave {r : Regs} {hist past : List UInt8} {start : Nat} (flush : Flush) (code : Ret)
    (h : Windowed r.st hist) (hgood : r.Good past start) :
    ∃ hist', WindowOk (r.leaveState flush code) hist' ∧
      (r.st.mode.phase ≤ 1 → hist' = r.out ++ hist) := by
  obtain ⟨⟨hist', hw, heq⟩, -⟩ := h
  unfold Regs.leaveState
  split
  · refine ⟨_, hw.updatewindow r.pending _, fun hp => ?_⟩
    rw [heq hp, Regs.pending_of_eq (hgood.early (by omega)), List.reverse_reverse]
  · next hopens =>
    have hsame : r.st.mode.phase ≤ 1 → hist' = r.out ++ hist := by
      intro hp
      have hmark := hgood.early (by omega)
      have hnil : r.out = [] := by
        by_contra hne
        have hpos := List.length_pos_iff.mpr hne
        refine hopens (.inr ⟨by omega, ?_, .inl ?_⟩)
        · rw [Mode.index_bad]
          omega
        · rw [Mode.index_check]
          exact hp
      rw [heq hp, hnil]
      rfl
    split
    · exact ⟨hist', hw.congr rfl, hsame⟩
    · exact ⟨hist', hw, hsame⟩

/-- No more bits are held than a program could not use. -/
def InflateStream.Lazy (strm : InflateStream) : Prop :=
  strm.bits < 8 ∨ strm.st.mode = .bad ∨
    ∃ p, strm.st.prog = some p ∧ p.runStream 0 ⟨strm.hold, strm.bits, strm.lt⟩ = none

/-- What holds of a stream between calls. -/
structure Session.Inv (s : Session) : Prop where
  ok : s.strm.st.Ok
  bits : s.strm.st.BitsOk s.strm.bits
  windowed : Windowed s.strm.st s.hist
  header : s.strm.st.mode.phase = 0 → s.out = [] ∧ s.strm.st.total = 0
  check : 1 ≤ s.strm.st.mode.phase ∧ s.strm.st.mode.phase ≤ 4 → s.strm.st.wrap &&& 4 ≠ 0 →
    s.strm.st.check = checkOf s.strm.st s.out ∧ s.strm.st.total = s.out.length
  totalOut : s.strm.totalOut = s.out.length
  lazy : s.strm.Lazy

namespace Session
variable {s : Session} {mem : Int → UInt8} {nextIn : Int} {availIn availOut : Nat} {flush : Flush}

/-- The registers at the start of a call. -/
def load (s : Session) (mem : Int → UInt8) (nextIn : Int) (availIn availOut : Nat) : Regs :=
  (s.feed nextIn availIn availOut).load mem

theorem Inv.load (mem : Int → UInt8) (nextIn : Int) (availIn availOut : Nat) (h : s.Inv) :
    (s.load mem nextIn availIn availOut).Good s.out s.strm.totalOut ∧
    (s.load mem nextIn availIn availOut).Lazy ∧
    Windowed (s.load mem nextIn availIn availOut).st s.hist := by
  have hbounds := h.windowed.bounds
  unfold Session.load InflateStream.load feed
  dsimp only
  split
  · next hm =>
    have hp : s.strm.st.mode.phase = 1 := by rw [hm]; rfl
    have hlive := InflateState.typedo_live hm
    have hbits := h.bits
    simp only [InflateState.BitsOk, hm] at hbits
    refine ⟨⟨trivial, hbits, hbounds.1, le_rfl, ?_, by rintro ⟨⟩, fun _ => rfl, fun _ _ => rfl, ?_,
      by rintro (⟨⟨⟩⟩ | ⟨⟨⟩⟩)⟩, ?_, ⟨?_, by rintro ⟨⟩⟩⟩
    · dsimp only
      rw [Nat.sub_self]
      rfl
    · intro _ hw
      exact h.check (by omega) hw
    · rcases h.lazy with hl | hl | hl
      · exact .inl hl
      · rw [hm] at hl
        cases hl
      · exact .inr (.inr (InflateState.prog_stuck hlive.symm h.ok hl))
    · obtain ⟨hist', hw, heq⟩ := h.windowed.seen
      exact ⟨hist', hw.congr rfl, fun _ => heq (by omega)⟩
  · refine ⟨⟨h.ok, h.bits, hbounds.1, le_rfl, ?_, ?_, fun _ => rfl, fun _ _ => rfl, ?_, ?_⟩, h.lazy,
      h.windowed⟩
    · dsimp only
      rw [Nat.sub_self]
      rfl
    · intro h0
      exact ⟨rfl, h.header h0⟩
    · intro h1 hw
      dsimp only at h1
      exact h.check (by omega) hw
    · intro h3 hw
      dsimp only at h3
      exact h.check (by omega) hw

/-- The stream at the end of a call. -/
theorem Inv.leave {r₀ r : Regs} {hist past : List UInt8} {code : Ret} {taken : Int}
    {strm : InflateStream} (hgood : r.Good past past.length) (hlazy : r.Lazy)
    (hwin : Windowed r.st hist) (hend : r₀.Ends r code) :
    Inv { strm := (strm.infLeave flush code r).2, taken := taken, out := r.out ++ past
          hist := r.out ++ hist } := by
  have hbounds := hwin.bounds
  obtain ⟨d, heq⟩ := InflateStream.infLeave_eq strm flush code r hbounds.2
  obtain ⟨hist', hw, hhist⟩ := hwin.leave flush code hgood
  have hcheck := Regs.leaveState_check flush hgood hbounds.2 hend
  obtain ⟨wsize, whave, wnext, window, adler, check, hst, hhash⟩ :=
    Regs.leaveState_eq flush code hbounds.2
  have hunopened : r.st.mode = .head → r.st.wrap ≠ 0 → (r.leaveState flush code).wsize = 0 := by
    intro hm hne
    have h0 := hwin.unopened hm hne
    obtain ⟨hout, -, -⟩ := hgood.header (by rw [hm]; rfl)
    have hmark := hgood.early (by rw [hm]; decide)
    rw [hout, List.length_nil, Nat.add_zero] at hmark
    unfold Regs.leaveState
    rw [if_neg (fun ho => ho.elim (fun h => h h0) (fun h => h.1 hmark))]
    split
    · exact h0
    · exact h0
  have hlive : r.st.mode.inHeader = true → check = r.st.check := by
    intro hm
    rw [Mode.inHeader_iff] at hm
    obtain ⟨hout, -, -⟩ := hgood.header hm
    have hmark := hgood.early (by omega)
    rcases hhash with hhash | hhash
    · exact hhash
    · rw [hhash, Regs.pending_of_eq hmark, hout, List.reverse_nil, InflateState.hash_nil]
  rw [heq]
  rw [hst] at hw hunopened hcheck ⊢
  refine ⟨hgood.ok.accounts, hgood.bits, ⟨⟨hist', hw.congr rfl, hhist⟩, hunopened⟩, ?_, ?_, ?_, ?_⟩
  · intro h0
    obtain ⟨hout, hpast, htotal⟩ := hgood.header h0
    have hmark := hgood.early (show r.st.mode.phase ≤ 2 from h0.trans_le (Nat.zero_le _))
    rw [hout, List.length_nil, Nat.add_zero] at hmark
    refine ⟨by rw [hout, hpast]; rfl, ?_⟩
    dsimp only
    omega
  · intro h1 hw4
    exact hcheck h1 hw4
  · have hcounted := hgood.counted
    dsimp only
    rw [List.length_append]
    omega
  · rcases hlazy with hl | hl | hl
    · exact .inl hl
    · exact .inr (.inl hl)
    · exact .inr (.inr (InflateState.prog_stuck (InflateState.accounts_live hlive).symm hgood.ok hl))

end Session
end ZlibNg
