import ZlibNg.Inflate.Calls

/-! The check value follows the output, and the trailer decides how the stream ends. -/
namespace ZlibNg
open BitProg

/-- What the bits at a trailer say of the output. -/
inductive Verdict
  | incomplete | agrees | differs
  deriving DecidableEq, Repr

/-- The length in the trailer, which only gzip has. -/
def lengthVerdict (s : InflateState) (out : List UInt8) (v : BitStream) : Verdict :=
  if s.flags = 0 then .agrees
  else if v.len < 32 then .incomplete
  else if v.peek 32 = out.length % 2 ^ 32 then .agrees
  else .differs

/-- The check value in the trailer, and what follows. -/
def checkVerdict (s : InflateState) (out : List UInt8) (v : BitStream) : Verdict :=
  if v.len < 32 then .incomplete
  else if Regs.checkWord s v = checkOf s out then lengthVerdict s out (v.drop 32)
  else .differs

/-- The return code that a verdict leads to. -/
def Verdict.code : Verdict → Ret
  | .incomplete => .ok
  | .agrees => .streamEnd
  | .differs => .dataError

/-- A pass that leaves does not go on. -/
theorem Ctl.not_loop {c : Ctl} {code : Ret} {r : Regs} (h : c = .leave code r) (r' : Regs) :
    c ≠ .loop r' := by
  rintro rfl
  cases h

namespace Regs
variable {past : List UInt8} {start : Nat} {r r' : Regs} {flush : Flush}

/-- What the trailer says of the output, at `CHECK` and at `LENGTH`. -/
def verdict (out : List UInt8) (r : Regs) : Verdict :=
  if r.st.mode = .check then checkVerdict r.st out r.acc.stream
  else lengthVerdict r.st out r.acc.stream

section Passes

/-- The next pass is on the way to the last one. -/
theorem Passes.next {r₁ : Regs} (hp : Passes flush r r') (hs : r.step flush = .loop r₁)
    (hlast : ∀ r₂, r'.step flush ≠ .loop r₂) : Passes flush r₁ r' := by
  rcases Relation.ReflTransGen.cases_head hp with rfl | ⟨r₂, hs₂, hp₂⟩
  · exact absurd hs (hlast r₁)
  · rw [hs] at hs₂
    obtain rfl := Ctl.loop.inj hs₂
    exact hp₂

theorem Passes.eq (hp : Passes flush r r') (hs : ∀ r₁, r.step flush ≠ .loop r₁) : r = r' := by
  rcases Relation.ReflTransGen.cases_head hp with rfl | ⟨r₂, hs₂, -⟩
  · rfl
  · exact absurd hs₂ (hs r₂)

/-- Every pass of a call is on the way to the last one. -/
theorem Passes.join {r₁ : Regs} (hp : Passes flush r r₁) (hp' : Passes flush r r')
    (hlast : ∀ r₂, r'.step flush ≠ .loop r₂) : Passes flush r₁ r' := by
  induction hp with
  | refl => exact hp'
  | tail _ hs ih => exact ih.next hs hlast

end Passes

/-- `CHECK`: it waits for the check value, and then goes to `LENGTH` or ends in an error. -/
theorem step_check (flush : Flush) (h : r.Good past start) (hm : r.st.mode = .check)
    (hw : r.st.wrap &&& 4 ≠ 0) :
    (r.acc.stream.len < 32 ∧ ∃ r₁, r.step flush = .leave .ok r₁ ∧ r₁.out = r.out) ∨
    (32 ≤ r.acc.stream.len ∧ ∃ r₁, r.step flush = .loop r₁ ∧ r₁.out = r.out ∧
      r₁.st.flags = r.st.flags ∧ r₁.st.wrap = r.st.wrap ∧
      if checkWord r.st r.acc.stream = checkOf r.st (r.out ++ past) then
        r₁.st.mode = .length ∧ r₁.acc.stream = r.acc.stream.drop 32
      else r₁.st.mode = .bad) := by
  have hw0 : r.st.wrap ≠ 0 := by
    intro h0
    rw [h0] at hw
    exact hw rfl
  have hbits := h.bits
  obtain ⟨hcheck, -⟩ := h.settle hm hw
  obtain ⟨c, a, heq⟩ := settle_eq r
  have hran : Ran r.settle r.acc r.settle.caseCheck (r.settle.caseCheck.run r.acc) := run_ran
    (InflateState.caseCheck_wp (by rw [heq]; exact hm) (by rw [heq]; exact hbits))
    (InflateState.caseCheck_agree (by rw [heq]; exact hm) rfl fun _ => rfl)
  unfold step
  rw [hm]
  dsimp only
  unfold Regs.caseCheck
  generalize r.settle.caseCheck.run r.acc = res at hran ⊢
  cases res with
  | leave acc =>
    obtain ⟨-, -, -, hnone⟩ := hran
    rw [caseCheck_none] at hnone
    exact .inl ⟨hnone.2, _, rfl, rfl⟩
  | done st acc =>
    obtain ⟨hkeep, -, -, -, hs⟩ := hran
    dsimp only
    rw [if_pos hw0]
    have hwrap : r.settle.wrap = r.st.wrap := by rw [heq]
    have hflags : r.settle.flags = r.st.flags := by rw [heq]
    have hword : checkWord r.settle r.acc.stream = checkWord r.st r.acc.stream := by
      unfold checkWord
      rw [hflags]
    rw [caseCheck_runStream, hwrap, if_neg hw0, hword, hcheck] at hs
    split at hs
    · cases hs
    · next hlen =>
      refine .inr ⟨by omega, _, rfl, rfl, ?_, hkeep.wrap.trans hwrap, ?_⟩
      · exact (hkeep.check (by rw [heq]; dsimp only; rw [hm]; nofun)).2.trans hflags
      · split at hs
        · next hne =>
          rw [if_neg hne.2]
          obtain ⟨rfl, -⟩ : _ ∧ _ := by simpa using hs
          rfl
        · next hcond =>
          rw [if_pos (by
            by_contra hne
            exact hcond ⟨hw, hne⟩)]
          obtain ⟨rfl, hv⟩ : _ ∧ _ := by simpa using hs
          exact ⟨rfl, hv.symm⟩

/-- `LENGTH`: it waits for the length, which zlib has not, and ends the stream. -/
theorem step_length (flush : Flush) (h : r.Good past start) (hm : r.st.mode = .length)
    (hw : r.st.wrap &&& 4 ≠ 0) :
    match lengthVerdict r.st (r.out ++ past) r.acc.stream with
    | .incomplete => ∃ r₁, r.step flush = .leave .ok r₁ ∧ r₁.out = r.out
    | .agrees => ∃ r₁, r.step flush = .loop r₁ ∧ r₁.out = r.out ∧ r₁.st.mode = .done
    | .differs => ∃ r₁, r.step flush = .loop r₁ ∧ r₁.out = r.out ∧ r₁.st.mode = .bad := by
  have hw0 : r.st.wrap ≠ 0 := by
    intro h0
    rw [h0] at hw
    exact hw rfl
  obtain ⟨-, htotal⟩ := h.trailer (.inl (by rw [hm]; rfl)) hw
  have hran : Ran r.st r.acc r.st.caseLength (r.st.caseLength.run r.acc) := run_ran
    (InflateState.caseLength_wp hm h.bits) (InflateState.caseLength_agree hm rfl fun _ => rfl)
  unfold step lengthVerdict
  rw [hm]
  dsimp only
  unfold Regs.runCase
  generalize r.st.caseLength.run r.acc = res at hran ⊢
  cases res with
  | leave acc =>
    obtain ⟨-, -, -, hnone⟩ := hran
    rw [InflateState.caseLength_none] at hnone
    obtain ⟨hne, hlen⟩ := hnone
    rw [if_neg (fun h0 => hne (.inr h0)), if_pos hlen]
    exact ⟨_, rfl, rfl⟩
  | done st acc =>
    obtain ⟨-, -, -, -, hs⟩ := hran
    rw [caseLength_runStream, htotal] at hs
    have hfinal : ∀ {m : Mode}, st.mode = m → m ≠ .len_ ∧ m ≠ .copy_ →
        ∃ r₁, (if flush = .trees ∧ (st.mode = .len_ ∨ st.mode = .copy_) then
          Ctl.leave .ok { r with st := st, acc := acc }
          else Ctl.loop { r with st := st, acc := acc }) = .loop r₁ ∧ r₁.out = r.out ∧
            r₁.st.mode = m := by
      rintro m rfl hne
      rw [if_neg (by tauto)]
      exact ⟨_, rfl, rfl, rfl⟩
    by_cases hf : r.st.flags = 0
    · rw [if_pos (.inr hf)] at hs
      rw [if_pos hf]
      obtain ⟨rfl, -⟩ : _ ∧ _ := by simpa using hs
      exact hfinal rfl (by decide)
    · rw [if_neg (by tauto)] at hs
      rw [if_neg hf]
      split at hs
      · cases hs
      · next hlen =>
        rw [if_neg hlen]
        split at hs
        · next hne =>
          rw [if_neg hne.2]
          obtain ⟨rfl, -⟩ : _ ∧ _ := by simpa using hs
          exact hfinal rfl (by decide)
        · next hcond =>
          rw [if_pos (by
            by_contra hne
            exact hcond ⟨hw, hne⟩)]
          obtain ⟨rfl, -⟩ : _ ∧ _ := by simpa using hs
          exact hfinal rfl (by decide)

/-- From the last modes there is one way out. -/
theorem Passes.leave {code : Ret} {m : Mode} {r₁ : Regs} (hp : Passes flush r r')
    (hs : r'.step flush = .leave code r₁) (hm : r.st.mode = m)
    (hm' : m = .done ∨ m = .bad) :
    code = (if m = .done then .streamEnd else .dataError) ∧ r₁.out = r.out := by
  have hstep : r.step flush = .leave (if m = .done then .streamEnd else .dataError) r := by
    unfold step
    rw [hm]
    rcases hm' with rfl | rfl
    · rfl
    · rfl
  have heq := hp.eq (Ctl.not_loop hstep)
  rw [← heq, hstep] at hs
  obtain ⟨rfl, rfl⟩ := Ctl.leave.inj hs
  exact ⟨rfl, rfl⟩

/-- From a trailer on, the call ends as the trailer says. -/
theorem verdict_code {code : Ret} {r₁ : Regs} (h : r.Good past start) (hl : r.Lazy)
    (hm : r.st.mode = .check ∨ r.st.mode = .length) (hw : r.st.wrap &&& 4 ≠ 0)
    (hp : Passes flush r r') (hs : r'.step flush = .leave code r₁) :
    code = (r.verdict (r.out ++ past)).code ∧ r₁.out = r.out := by
  have hlast := Ctl.not_loop hs
  -- what the length that the trailer ends with decides
  have hlength : ∀ {r : Regs}, r.Good past start → r.st.mode = .length → r.st.wrap &&& 4 ≠ 0 →
      Passes flush r r' →
        code = (lengthVerdict r.st (r.out ++ past) r.acc.stream).code ∧ r₁.out = r.out := by
    intro r h hm hw hp
    have hstep := step_length flush h hm hw
    cases hv : lengthVerdict r.st (r.out ++ past) r.acc.stream with
    | incomplete =>
      rw [hv] at hstep
      obtain ⟨r₂, hr₂, hout⟩ := hstep
      have heq := hp.eq (Ctl.not_loop hr₂)
      rw [← heq, hr₂] at hs
      obtain ⟨rfl, rfl⟩ := Ctl.leave.inj hs
      exact ⟨rfl, hout⟩
    | agrees =>
      rw [hv] at hstep
      obtain ⟨r₂, hr₂, hout, hm₂⟩ := hstep
      exact ((hp.next hr₂ hlast).leave hs hm₂ (.inl rfl)).imp_right fun h => h.trans hout
    | differs =>
      rw [hv] at hstep
      obtain ⟨r₂, hr₂, hout, hm₂⟩ := hstep
      exact ((hp.next hr₂ hlast).leave hs hm₂ (.inr rfl)).imp_right fun h => h.trans hout
  unfold verdict
  rcases hm with hm | hm
  · rw [if_pos hm]
    unfold checkVerdict
    rcases step_check flush h hm hw with
      ⟨hlen, r₂, hr₂, hout⟩ | ⟨hlen, r₂, hr₂, hout, hf, hwr, hnext⟩
    · rw [if_pos hlen]
      have heq := hp.eq (Ctl.not_loop hr₂)
      rw [← heq, hr₂] at hs
      obtain ⟨rfl, rfl⟩ := Ctl.leave.inj hs
      exact ⟨rfl, hout⟩
    · rw [if_neg (by omega)]
      have hp₂ := hp.next hr₂ hlast
      split at hnext
      · next heq =>
        rw [if_pos heq]
        obtain ⟨hm₂, hstream⟩ := hnext
        have hgood := step_good flush h hl
        rw [hr₂] at hgood
        obtain ⟨hcode, hout₂⟩ := hlength hgood.1 hm₂ (by rw [hwr]; exact hw) hp₂
        refine ⟨?_, hout₂.trans hout⟩
        rw [hcode, hstream, hout]
        unfold lengthVerdict
        rw [hf]
      · next hne =>
        rw [if_neg hne]
        exact (hp₂.leave hs hnext (.inr rfl)).imp_right fun h => h.trans hout
  · rw [if_neg (by rw [hm]; nofun)]
    exact hlength h hm hw hp

/-- The modes in which the trailer is read. -/
def AtTrailer (r : Regs) : Prop := r.st.mode = .check ∨ r.st.mode = .length

/-- The end of the stream is reached from `LENGTH` only. -/
theorem step_done (h : r.Good past start) (hl : r.Lazy) (hs : r.step flush = .loop r')
    (hm : r'.st.mode = .done) : r.st.mode = .length := by
  have hgood := step_good flush h hl
  rw [hs] at hgood
  obtain ⟨-, hf, -, hnext⟩ := hgood
  obtain ⟨⟨-, hphase⟩, -⟩ := (Mode.follows_iff _ _).mp hnext
  have hle := hf.phase
  rw [hm] at hphase hle
  have hdone : r.st.mode ≠ .done := by
    intro hd
    unfold step at hs
    rw [hd] at hs
    cases hs
  revert hphase hle hdone
  generalize r.st.mode = m
  cases m <;> simp [Mode.phase]

end Regs

namespace Session
variable {s s' : Session} {mem : Int → UInt8} {nextIn : Int} {availIn availOut : Nat} {flush : Flush}
  {ret : Ret} {strm : InflateStream} {bytes : List UInt8}

theorem load_mode (mem : Int → UInt8) (nextIn : Int) (availIn availOut : Nat)
    (hm : s.strm.st.mode ≠ .type) :
    (s.load mem nextIn availIn availOut).st = s.strm.st := by
  unfold Session.load InflateStream.load feed
  dsimp only
  rw [if_neg hm]

theorem load_wrap : (s.load mem nextIn availIn availOut).st.wrap = s.strm.st.wrap := by
  unfold Session.load InflateStream.load feed
  dsimp only
  split <;> rfl

/-- A call that comes to the trailer returns what the trailer says of the output. -/
theorem Returned.trailer (hr : Returned s mem nextIn availIn availOut flush (ret, strm, bytes))
    (h : s.Inv) (hw : s.strm.st.wrap &&& 4 ≠ 0) {r : Regs}
    (hp : Regs.Passes flush (s.load mem nextIn availIn availOut) r) (hm : r.AtTrailer) :
    ret = (r.verdict (bytes.reverse ++ s.out)).code ∨
      r.verdict (bytes.reverse ++ s.out) = .incomplete ∧ ret = .bufError := by
  obtain ⟨hgood, hlazy, hwin⟩ := h.load mem nextIn availIn availOut
  obtain ⟨hgood', hf⟩ := hp.good hgood hlazy
  have hphase : 2 ≤ r.st.mode.phase := by
    rcases hm with hm | hm <;> rw [hm] <;> decide
  cases hr with
  | @leave r₁ r₂ code hp₁ hs hgood₂ hf₂ he =>
    obtain ⟨d, heq⟩ := InflateStream.infLeave_eq (s.feed nextIn availIn availOut) flush code r₂
      (hwin.follows hf₂).bounds.2
    have hjoin := hp.join hp₁ (Ctl.not_loop hs)
    obtain ⟨hcode, hout⟩ := Regs.verdict_code hgood' (hf.lazy hlazy) hm
      (by rw [hf.wrap, load_wrap]; exact hw) hjoin hs
    rw [heq, List.reverse_reverse, hout]
    generalize r.verdict (r.out ++ s.out) = verdict at hcode
    subst hcode
    dsimp only
    split
    · next hbuf =>
      right
      cases verdict with
      | incomplete => exact ⟨rfl, rfl⟩
      | agrees => cases hbuf.2
      | differs => cases hbuf.2
    · exact .inl rfl
  | needDict hp₁ hm₁ hs =>
    have hjoin := hp.join hp₁ (by rw [hs]; exact fun _ => by rintro ⟨⟩)
    have hle := (hjoin.good hgood' (hf.lazy hlazy)).2.phase
    rw [hm₁] at hle
    exact absurd (hphase.trans hle) (by decide)
  | sync hm₁ =>
    have hload := load_mode mem nextIn availIn availOut (show s.strm.st.mode ≠ .type by rw [hm₁]; nofun)
    have heq := hp.eq (by
      intro r₁ hs
      unfold Regs.step at hs
      rw [hload, hm₁] at hs
      cases hs)
    rw [← heq] at hm
    unfold Regs.AtTrailer at hm
    rw [hload, hm₁] at hm
    rcases hm with hm | hm <;> cases hm

/-- A call returns `Z_STREAM_END` after the end, or because the trailer agrees with the output. -/
theorem Returned.streamEnd (hr : Returned s mem nextIn availIn availOut flush (ret, strm, bytes))
    (h : s.Inv) (hw : s.strm.st.wrap &&& 4 ≠ 0) :
    ret = .streamEnd ↔ s.strm.st.mode = .done ∨
      ∃ r, Regs.Passes flush (s.load mem nextIn availIn availOut) r ∧ r.AtTrailer ∧
        r.verdict (bytes.reverse ++ s.out) = .agrees := by
  obtain ⟨hgood, hlazy, hwin⟩ := h.load mem nextIn availIn availOut
  have htrailer := fun r => hr.trailer h hw (r := r)
  constructor
  · intro hret
    subst hret
    generalize hx : (Ret.streamEnd, strm, bytes) = x at hr
    cases hr with
    | @leave r₁ r₂ code hp₁ hs hgood₂ hf₂ he =>
      obtain ⟨d, heq⟩ := InflateStream.infLeave_eq (s.feed nextIn availIn availOut) flush code r₂
        (hwin.follows hf₂).bounds.2
      rw [heq] at hx
      have hcode : code = .streamEnd := by
        have h1 := congrArg Prod.fst hx
        dsimp only at h1
        split at h1
        · cases h1
        · exact h1.symm
      subst hcode
      cases he with
      | streamEnd hm heq' =>
        subst heq'
        rcases Relation.ReflTransGen.cases_tail hp₁ with heq₁ | ⟨r₀, hp₀, hs₀⟩
        · left
          by_contra hne
          rw [heq₁] at hm
          by_cases htype : s.strm.st.mode = .type
          · unfold Session.load InflateStream.load feed at hm
            dsimp only at hm
            rw [if_pos htype] at hm
            cases hm
          · rw [load_mode _ _ _ _ htype] at hm
            exact hne hm
        · right
          obtain ⟨hgood₀, hf₀⟩ := Regs.Passes.good hp₀ hgood hlazy
          have hm₀ := Regs.step_done hgood₀ (hf₀.lazy hlazy) hs₀ hm
          refine ⟨r₀, hp₀, .inr hm₀, ?_⟩
          rcases htrailer r₀ hp₀ (.inr hm₀) with hv | ⟨-, hv⟩
          · cases hver : r₀.verdict (bytes.reverse ++ s.out) with
            | agrees => rfl
            | incomplete => rw [hver] at hv; cases hv
            | differs => rw [hver] at hv; cases hv
          · cases hv
    | needDict => cases hx
    | sync => cases hx
  · rintro (hdone | ⟨r, hp, hm, hv⟩)
    · have hload := load_mode mem nextIn availIn availOut (show s.strm.st.mode ≠ .type by rw [hdone]; nofun)
      have hstep : (s.load mem nextIn availIn availOut).step flush =
          .leave .streamEnd (s.load mem nextIn availIn availOut) := by
        unfold Regs.step
        rw [hload, hdone]
      cases hr with
      | @leave r₁ r₂ code hp₁ hs hgood₂ hf₂ he =>
        have heq := hp₁.eq (Ctl.not_loop hstep)
        rw [← heq, hstep] at hs
        obtain ⟨rfl, rfl⟩ := Ctl.leave.inj hs
        obtain ⟨d, heq⟩ := InflateStream.infLeave_eq (s.feed nextIn availIn availOut) flush .streamEnd
          (s.load mem nextIn availIn availOut) hwin.bounds.2
        rw [heq]
        exact if_neg fun h => by cases h.2
      | needDict hp₁ hm₁ hs =>
        have heq := hp₁.eq (Ctl.not_loop hstep)
        rw [← heq, hload, hdone] at hm₁
        cases hm₁
      | sync hm₁ =>
        rw [hdone] at hm₁
        cases hm₁
    · rcases htrailer r hp hm with hret | ⟨hinc, -⟩
      · rw [hret, hv]
        rfl
      · rw [hv] at hinc
        cases hinc

/-- In every run, when the header has been read and there was no error, the check value is that of
the whole output, each byte hashed once: the CRC-32 for gzip and the Adler-32 for zlib, which has
no flags. A call returns `Z_STREAM_END` just when the stream had ended before or the trailer agrees
with the output, and `Z_DATA_ERROR` when the trailer differs. -/
theorem check_kept {may : Session → Call → Prop} (hr : Run may s) (hw : s.strm.st.wrap &&& 4 ≠ 0) :
    (1 ≤ s.strm.st.mode.phase ∧ s.strm.st.mode.phase ≤ 4 →
      s.strm.st.check = hashOf s.strm.st.flags s.out.reverse) ∧
    ∀ mem nextIn availIn availOut flush ret s',
      s.call (.inflate mem nextIn availIn availOut flush) = some (ret, s') →
      (ret = .streamEnd ↔ s.strm.st.mode = .done ∨
        ∃ r, Regs.Passes flush (s.load mem nextIn availIn availOut) r ∧ r.AtTrailer ∧
          r.verdict s'.out = .agrees) ∧
      ∀ r, Regs.Passes flush (s.load mem nextIn availIn availOut) r → r.AtTrailer →
        (r.verdict s'.out = .differs → ret = .dataError) ∧
        (r.verdict s'.out = .incomplete → ret = .ok ∨ ret = .bufError) := by
  have h := hr.inv
  refine ⟨fun hphase => (h.check hphase hw).1, ?_⟩
  intro mem nextIn availIn availOut flush ret s' hc
  obtain ⟨⟨ret', strm, bytes⟩, hx, hreturned⟩ := h.returned mem nextIn availIn availOut flush
  unfold Session.call at hc
  dsimp only at hc
  rw [hx] at hc
  obtain ⟨rfl, rfl⟩ : ret' = ret ∧ _ = s' := by simpa using hc
  refine ⟨hreturned.streamEnd h hw, fun r hp hm => ?_⟩
  have htrailer := hreturned.trailer h hw hp hm
  constructor
  · intro hv
    dsimp only at hv
    rw [hv] at htrailer
    rcases htrailer with hret | ⟨hinc, -⟩
    · exact hret
    · cases hinc
  · intro hv
    dsimp only at hv
    rw [hv] at htrailer
    exact htrailer.imp_right fun h => h.2

/-- A zlib stream of one stored byte. -/
theorem check_kept_stored : ∃ s, Run (fun _ _ => True) s ∧ s.strm.st.mode = .done ∧
    s.out = [0x61] ∧ s.strm.st.check = hashOf s.strm.st.flags s.out.reverse := by
  have hrun : ((fresh 15 rfl).call (.inflate (memOf
      [0x78, 0x01, 0x01, 0x01, 0x00, 0xfe, 0xff, 0x61, 0x00, 0x62, 0x00, 0x62]) 0 12 9 .finish)).map
        (fun x => (x.1, x.2.strm.st.mode, x.2.strm.st.wrap, x.2.out)) =
          some (.streamEnd, .done, 5, [0x61]) := by decide
  obtain ⟨⟨ret, s⟩, hc, hs⟩ := Option.map_eq_some_iff.mp hrun
  simp only [Prod.mk.injEq] at hs
  obtain ⟨-, hm, hwrap, hout⟩ := hs
  have hreached : Run (fun _ _ => True) s := .call (fresh_run rfl) trivial hc
  refine ⟨s, hreached, hm, hout, ?_⟩
  exact (check_kept hreached (by rw [hwrap]; decide)).1 (by rw [hm]; decide)

end Session
end ZlibNg
