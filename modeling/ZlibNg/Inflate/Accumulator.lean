import ZlibNg.Inflate.Calls
import ZlibNg.Inflate.Held

/-! The bits that are held without `inflatePrime`: 32 at most after every call, and where
`inflate_fast` is entered only bits whose bytes the loop there can do without. -/
namespace ZlibNg
open BitProg

namespace InflateState
variable {s : InflateState} {b : Nat}

/-- A program that ends with 32 bits at most. -/
def Ends32 (p : CaseProg) (b : Nat) : Prop := p.wp true b 0 (fun _ => True) fun _ b _ => b ≤ 32

theorem Ends32.run {p : CaseProg} {r : BitReader} (h : Ends32 p r.bits) {t : InflateState}
    {acc : BitReader} (hrun : p.run r = .done t acc) : acc.bits ≤ 32 := by
  have hspec := run_spec p h
  rw [hrun] at hspec
  obtain ⟨-, -, u, hbits, -⟩ := hspec
  exact hbits

/-- A field of four bytes is read without a bit to spare. -/
theorem caseTime_ends (hb : b % 8 = 0 ∧ b ≤ 32) : Ends32 s.caseTime b := by
  simp only [Ends32, caseTime, needBits, hold, initBits, pure_eq, ret_bind, need_bind, whole_bind,
    empty_bind, wp, true_and]
  exact ⟨fun _ _ _ _ => trivial, fun b' h1 h2 h3 h4 => ⟨by omega, fun _ _ => ⟨by omega, by omega⟩⟩⟩

theorem caseDictid_ends (hb : b % 8 = 0 ∧ b ≤ 32) : Ends32 s.caseDictid b := by
  simp only [Ends32, caseDictid, needBits, hold, initBits, pure_eq, ret_bind, need_bind, whole_bind,
    empty_bind, wp, true_and]
  exact ⟨fun _ _ _ _ => trivial, fun b' h1 h2 h3 h4 => ⟨by omega, fun _ _ => ⟨by omega, by omega⟩⟩⟩

theorem caseStored_ends (hb : b % 8 = 0 ∧ b ≤ 32) : Ends32 s.caseStored b := by
  simp only [Ends32, caseStored, needBits, hold, initBits, pure_eq, ret_bind, need_bind, whole_bind,
    empty_bind, wp, wp_ite, true_and]
  exact ⟨fun _ _ _ _ => trivial, fun b' h1 h2 h3 h4 => ⟨by omega, fun _ _ =>
    ⟨fun _ => by omega, fun _ => ⟨by omega, by omega⟩⟩⟩⟩

theorem caseCheck_ends (hb : b ≤ 32 ∧ (s.wrap ≠ 0 → b % 8 = 0)) : Ends32 s.caseCheck b := by
  simp only [Ends32, caseCheck, needBits, hold, initBits, pure_eq, ret_bind, need_bind, whole_bind,
    empty_bind, wp, wp_ite, true_and]
  refine ⟨fun hw => ?_, fun _ => hb.1⟩
  have hb8 := hb.2 hw
  exact ⟨fun _ _ _ _ => trivial, fun b' h1 h2 h3 h4 => ⟨by omega, fun _ _ =>
    ⟨fun _ => by omega, fun _ => ⟨by omega, by omega⟩⟩⟩⟩

theorem caseLength_ends (hb : b ≤ 32 ∧ (s.wrap ≠ 0 → b % 8 = 0)) : Ends32 s.caseLength b := by
  simp only [Ends32, caseLength, needBits, hold, initBits, pure_eq, ret_bind, need_bind, whole_bind,
    empty_bind, wp, wp_ite, true_and]
  refine ⟨fun hw => ?_, fun _ => hb.1⟩
  have hb8 := hb.2 hw.1
  exact ⟨fun _ _ _ _ => trivial, fun b' h1 h2 h3 h4 => ⟨by omega, fun _ _ =>
    ⟨fun _ => by omega, fun _ => ⟨by omega, by omega⟩⟩⟩⟩

/-- A code is taken whole, so that seven bits are left of the byte it ends in. -/
theorem caseLen_ends (hs : TablesOk s) (hb : b ≤ 32) : Ends32 s.caseLen b := by
  rw [Ends32, caseLen_eq, wp_map]
  exact lookupCode_wp hs.len hs.lenbits_le lenLink (fun _ _ _ => trivial)
    fun c l b' _ _ _ h => by omega

theorem caseDist_ends (hs : TablesOk s) (hb : b ≤ 32) : Ends32 s.caseDist b := by
  rw [Ends32, caseDist_eq, wp_map]
  exact lookupCode_wp hs.dist hs.distbits_le distLink (fun _ _ _ => trivial)
    fun c l b' _ _ _ h => by omega

/-- A case that ends with a run of its program ends with 32 bits at most. -/
theorem bitCase_ends {p : CaseProg} (hp : s.bitCase = some p) (hs : s.Ok) {r t : BitReader}
    {s' : InflateState} (hb : s.BitsOk r.bits) (hle : r.bits ≤ 32) (hrun : p.run r = .done s' t) :
    t.bits ≤ 32 := by
  have hbounded := bitCase_bounded hp hs.narrow
  have hasks (hm : asks s.mode = 25) : t.bits ≤ 32 := by
    rw [hm] at hbounded
    have hall := hbounded.run hle
    rw [hrun] at hall
    exact hall.2
  unfold bitCase at hp
  unfold Ok at hs
  unfold BitsOk at hb
  generalize hm : s.mode = m at hp hs hb hasks
  cases m <;> simp only [Option.some.injEq, reduceCtorEq] at hp <;> subst hp
  case time => exact (caseTime_ends hb).run hrun
  case dictid => exact (caseDictid_ends hb).run hrun
  case length => exact (caseLength_ends hb).run hrun
  case len => exact (caseLen_ends hs hb).run hrun
  case dist => exact (caseDist_ends hs.1 hb).run hrun
  all_goals exact hasks rfl

theorem BitsOk.le (h : s.BitsOk b) (hm : s.mode ≠ .bad) : b ≤ 32 := by
  unfold BitsOk at h
  split at h
  · exact absurd ‹_› hm
  all_goals omega

end InflateState

namespace Regs
variable {past : List UInt8} {start : Nat} {r r₀ : Regs} {flush : Flush}

/-- However a pass ends, no more than 32 bits are held. -/
def Ctl32 : Ctl → Prop
  | .loop r => r.acc.bits ≤ 32
  | .leave _ r => r.acc.bits ≤ 32
  | .ret _ r => r.acc.bits ≤ 32

/-- A case that leaves does so in its own mode. -/
theorem runCase_le32 {p : CaseProg} (hgood : r₀.StepGood past start (r.runCase flush p))
    (hm : r.st.mode ≠ .bad) (hdone : ∀ t acc, p.run r.acc = .done t acc → acc.bits ≤ 32) :
    Ctl32 (r.runCase flush p) := by
  unfold runCase at hgood ⊢
  cases hrun : p.run r.acc with
  | leave acc =>
    rw [hrun] at hgood
    exact hgood.1.bits.le hm
  | done t acc =>
    have hle := hdone t acc hrun
    dsimp only
    split
    · exact hle
    · exact hle

theorem caseExtra_le32 (hb : r.acc.bits ≤ 32) : Ctl32 r.caseExtra := by
  unfold caseExtra
  dsimp only
  split
  · split
    · split
      · exact hb
      · exact hb
    · split
      · exact hb
      · exact hb
  · exact hb

theorem scanString_le32 {save : InflateState → UInt8 → InflateState}
    {next : InflateState → InflateState} (hb : r.acc.bits ≤ 32) : Ctl32 (r.scanString save next) := by
  unfold scanString
  split
  · exact hb
  · dsimp only
    split
    · exact hb
    · exact hb

theorem caseCopy_le32 (hb : r.acc.bits ≤ 32) : Ctl32 r.caseCopy := by
  unfold caseCopy
  dsimp only
  split
  · split
    · exact hb
    · exact hb
  · exact hb

theorem caseMatch_le32 (hb : r.acc.bits ≤ 32) : Ctl32 r.caseMatch := by
  unfold caseMatch
  split
  · exact hb
  · dsimp only
    split
    · split
      · exact hb
      · split
        · exact hb
        · exact hb
    · exact hb

theorem caseCheck_le32 (h : r.Good past start) (hm : r.st.mode = .check) : Ctl32 r.caseCheck := by
  have hgood := caseCheck_good h hm
  obtain ⟨c, a, heq⟩ := settle_eq r
  have hends : InflateState.Ends32 r.settle.caseCheck r.acc.bits := by
    have hbits := h.bits
    simp only [InflateState.BitsOk, hm] at hbits
    refine InflateState.caseCheck_ends ?_
    rw [heq]
    exact hbits
  unfold caseCheck at hgood ⊢
  cases hrun : r.settle.caseCheck.run r.acc with
  | leave acc =>
    rw [hrun] at hgood
    exact hgood.1.bits.le (by dsimp only; rw [hm]; decide)
  | done t acc =>
    have hle := hends.run hrun
    dsimp only
    split
    · exact hle
    · exact hle

theorem enterFast_le32 : Ctl32 r.enterFast := by
  unfold enterFast
  dsimp only
  generalize hf : inflateFast _ _ _ _ _ _ _ _ _ _ _ = f
  have hbits : f.bits < 8 := by
    rw [← hf]
    exact FastRegs.finish_bits _ _
  exact (show f.bits ≤ 32 by omega)

/-- A pass of the loop leaves 32 bits at most. -/
theorem step_le32 (flush : Flush) (h : r.Good past start) (hb : r.acc.bits ≤ 32) :
    Ctl32 (r.step flush) := by
  have hcase {p : CaseProg} (hp : r.st.bitCase = some p) : Ctl32 (r.runCase flush p) := by
    refine runCase_le32 (h.bitCase hp) ?_ fun t acc hrun =>
      InflateState.bitCase_ends hp h.ok h.bits hb hrun
    intro hbad
    unfold InflateState.bitCase at hp
    rw [hbad] at hp
    cases hp
  unfold InflateState.bitCase at hcase
  unfold step
  generalize hm : r.st.mode = m at hcase
  cases m
  case extra => exact caseExtra_le32 hb
  case name =>
    unfold caseName
    dsimp only
    split
    · exact scanString_le32 hb
    · exact hb
  case comment =>
    unfold caseComment
    dsimp only
    split
    · exact scanString_le32 hb
    · exact hb
  case dict =>
    dsimp only
    unfold caseDict
    split
    · exact hb
    · exact hb
  case type =>
    dsimp only
    split
    · exact hb
    · exact hcase rfl
  case stored =>
    refine runCase_le32 (caseStored_good h hm) (by rw [hm]; decide) fun t acc hrun =>
      (InflateState.caseStored_ends ?_).run hrun
    dsimp only [BitReader.drop_bits]
    omega
  case copy_ => exact hb
  case copy => exact caseCopy_le32 hb
  case len_ => exact hb
  case len =>
    have hok := h.ok
    simp only [InflateState.Ok, hm] at hok
    dsimp only
    split
    · exact enterFast_le32
    · refine runCase_le32 (caseLenSlow_good h hm) (by rw [hm]; decide) fun t acc hrun =>
        (InflateState.caseLen_ends hok hb).run hrun
  case match_ => exact caseMatch_le32 hb
  case lit =>
    dsimp only
    unfold caseLit
    split
    · exact hb
    · exact hb
  case check => exact caseCheck_le32 h hm
  case done => exact hb
  case bad => exact hb
  case sync => exact hb
  all_goals exact hcase rfl

theorem Passes.le32 {r' : Regs} (hp : Passes flush r r') (h : r.Good past start) (hl : r.Lazy)
    (hb : r.acc.bits ≤ 32) : r'.acc.bits ≤ 32 := by
  induction hp with
  | refl => exact hb
  | tail hp hstep ih =>
    have hs := step_le32 flush (Passes.good hp h hl).1 ih
    rw [hstep] at hs
    exact hs

/-- What stays fixed in `inflate_fast`, as it is entered. -/
def fastEnv (r : Regs) : FastEnv :=
  { mem := r.acc.mem, safeMode := decide (r.left < inflateFastMinLeft), start := r.mark
    window := fun _ i => r.st.window i
    last := r.acc.next + ((r.acc.have_ : Int) - (inflateFastMinHave - 1 : Nat)) }

/-- The registers of `inflate_fast` at the end of its loop. -/
def fastEnd (r : Regs) : FastRegs :=
  let f : FastRegs := {
    in_ := r.acc.next, hold := r.acc.hold, bits := r.acc.bits, out := r.out, room := r.left
    st := r.st, loads := [] }
  (f.refill r.fastEnv).loop r.fastEnv (8 * r.acc.have_ + r.acc.bits + 1)

/-- The bits that are held begin a code for a literal or a length, which is longer. -/
def Unfinished (r : Regs) : Prop :=
  ∀ v, v % 2 ^ r.acc.bits = r.acc.hold → r.acc.bits < r.st.lenSize v

/-- The whole bytes that `inflate_fast` gives back, `bits >> 3` of them, were read there; `hold`
and the input pointer are what it leaves in the stream. -/
structure GivesBack (r r' : Regs) : Prop where
  read : (r.fastEnd.bits >>> 3 : Nat) ≤ r.fastEnd.in_ - r.acc.next
  next : r'.acc.next = r.fastEnd.in_ - (r.fastEnd.bits >>> 3 : Nat) ∧ r.acc.next ≤ r'.acc.next
  have_ : r'.acc.next + r'.acc.have_ = r.acc.next + r.acc.have_
  hold : r'.acc.hold = (r.fastEnd.finish r.fastEnv).hold

/-- No code is shorter than what is held of it. -/
theorem Lazy.unfinished (h : r.Lazy) (hm : r.st.mode = .len) (ht : TablesOk r.st) :
    r.acc.bits < 8 ∨ r.Unfinished := by
  refine (h.len hm ht).imp_right fun hlt v hv => ?_
  by_contra hge
  have hmod : v % 2 ^ r.st.lenSize v = r.acc.hold % 2 ^ r.st.lenSize v := by
    rw [← hv, Nat.mod_mod_of_dvd _ (Nat.pow_dvd_pow 2 (by omega))]
  have hsel := ht.len.select_stable ht.lenbits_le lenLink.op hmod
  have : r.st.lenSize v = r.st.lenSize r.acc.hold := by
    simp only [InflateState.lenSize, selectBits, hsel]
  omega

/-- The mask at the end of `inflate_fast` leaves the bits that are held, which fit into a byte. -/
theorem finish_hold (e : FastEnv) (f : FastRegs) :
    (f.finish e).hold % 2 ^ (f.finish e).bits = (f.finish e).hold := by
  have hlt : (f.finish e).hold < 2 ^ (f.finish e).bits :=
    (Nat.mod_le _ _).trans_lt (Nat.mod_lt _ (Nat.two_pow_pos _))
  exact Nat.mod_eq_of_lt hlt

theorem enterFast_givesBack (h : r.Good past start) (hl : r.Lazy) (hm : r.st.mode = .len)
    (hroom : inflateFastMinHave ≤ r.acc.have_ ∧ inflateFastMinSafe ≤ r.left) :
    ∃ r', r.enterFast = .loop r' ∧ r.GivesBack r' := by
  have hok := h.ok
  have hbits := h.bits
  simp only [InflateState.Ok, InflateState.BitsOk, hm] at hok hbits
  have hmark : r.mark = r.left + r.out.length := h.early (by rw [hm]; decide)
  obtain ⟨c, hf⟩ := inflateFast_spec (decide (r.left < inflateFastMinLeft)) hok h.whave
    (show r.acc.bits < 64 by omega) hroom.1 hroom.2 (by simp) hmark.symm
  obtain ⟨hnext, hends, havail, -, -⟩ := hf.rewind (by
    have := (hl.len hm hok).lt hok
    have := hf.size.2
    omega)
  -- the input pointer, less the bytes that are given back
  change r.acc.next ≤ r.fastEnd.in_ - (r.fastEnd.bits >>> 3 : Nat) at hnext
  refine ⟨_, rfl, by omega, ⟨rfl, hnext⟩, ?_, finish_hold _ _⟩
  simp only [FastResult.acc]
  omega

end Regs

namespace Session
variable {s : Session}

/-- What a call of `inflate` returns holds 32 bits at most. -/
theorem Returned.le32 {mem : Int → UInt8} {nextIn : Int} {availIn availOut : Nat} {flush : Flush}
    {ret : Ret} {strm : InflateStream} {bytes : List UInt8}
    (hr : Returned s mem nextIn availIn availOut flush (ret, strm, bytes)) (h : s.Inv)
    (hb : s.strm.bits ≤ 32) : strm.bits ≤ 32 := by
  obtain ⟨hgood, hlazy, hwin⟩ := h.load mem nextIn availIn availOut
  have hload : (s.load mem nextIn availIn availOut).acc.bits ≤ 32 := hb
  cases hr with
  | @leave r r' code hp hs hgood' hf he =>
    obtain ⟨d, heq⟩ := InflateStream.infLeave_eq (s.feed nextIn availIn availOut) flush code r'
      (hwin.follows hf).bounds.2
    have hstep := Regs.step_le32 flush (hp.good hgood hlazy).1 (hp.le32 hgood hlazy hload)
    rw [hs] at hstep
    rw [heq]
    exact hstep
  | @needDict r hp hm hs hgood' hf => exact hp.le32 hgood hlazy hload
  | sync hm => exact hb

/-- No call leaves more than 32 bits. -/
theorem Inv.le32 (h : s.Inv) (hb : s.strm.bits ≤ 32) {c : Call} {ret : Ret} {s' : Session}
    (hc : s.call c = some (ret, s')) : s'.strm.bits ≤ 32 := by
  cases c with
  | inflate mem nextIn availIn availOut flush =>
    obtain ⟨⟨ret', strm, bytes⟩, hx, hreturned⟩ := h.returned mem nextIn availIn availOut flush
    unfold Session.call at hc
    dsimp only at hc
    rw [hx] at hc
    obtain ⟨rfl, rfl⟩ : ret' = ret ∧ _ = s' := by simpa using hc
    exact hreturned.le32 h hb
  | setDictionary dictionary =>
    obtain ⟨-, rfl⟩ : _ ∧ _ = s' := by simpa only [Session.call, Option.some.injEq, Prod.mk.injEq] using hc
    dsimp only
    unfold InflateStream.inflateSetDictionary
    split
    · exact hb
    · split
      · exact hb
      · exact hb
  | sync mem nextIn availIn =>
    obtain ⟨-, rfl⟩ : _ ∧ _ = s' := by simpa only [Session.call, Option.some.injEq, Prod.mk.injEq] using hc
    dsimp only
    have hstart : (s.feed nextIn availIn s.strm.availOut).syncStart.bits ≤ 32 := by
      unfold InflateStream.syncStart
      split
      · exact hb
      · exact Nat.zero_le 32
    unfold InflateStream.inflateSync
    split
    · exact hb
    · dsimp only
      split
      · exact hstart
      · exact Nat.zero_le 32
  | reset =>
    obtain ⟨-, rfl⟩ : _ ∧ _ = s' := by simpa only [Session.call, Option.some.injEq, Prod.mk.injEq] using hc
    exact Nat.zero_le 32

theorem Run.bits_le {may : Session → Call → Prop} (h : Run may s) : s.strm.bits ≤ 32 := by
  induction h with
  | start h =>
    unfold Session.start InflateStream.inflateInit2 at h
    obtain ⟨strm, hstrm, rfl⟩ := Option.map_eq_some_iff.mp h
    obtain ⟨w, -, rfl⟩ := Option.map_eq_some_iff.mp hstrm
    exact Nat.zero_le 32
  | call hr _ hc ih => exact hr.inv.le32 ih hc

/-- After any calls, `inflate` returns with `hold` below `2 ^ bits` and at most 32 bits; and at
every pass of its loop that enters `inflate_fast`, the bits held are fewer than eight or begin a
longer code, so that the bytes given back were read in `inflate_fast`. -/
theorem accumulator_bounded {may : Session → Call → Prop} (h : Run may s) (mem : Int → UInt8)
    (nextIn : Int) (availIn availOut : Nat) (flush : Flush) :
    (∃ ret strm bytes,
      (s.feed nextIn availIn availOut).inflate mem flush = some (ret, strm, bytes) ∧
        strm.hold < 2 ^ strm.bits ∧ strm.bits ≤ 32) ∧
    ∀ r, Regs.Passes flush (s.load mem nextIn availIn availOut) r → r.st.mode = .len →
      inflateFastMinHave ≤ r.acc.have_ → inflateFastMinSafe ≤ r.left →
        (r.acc.bits < 8 ∨ r.Unfinished) ∧ ∃ r', r.step flush = .loop r' ∧ r.GivesBack r' := by
  have hinv := h.inv
  constructor
  · obtain ⟨⟨ret, strm, bytes⟩, hx, hreturned⟩ := hinv.returned mem nextIn availIn availOut flush
    exact ⟨ret, strm, bytes, hx, strm.lt, hreturned.le32 hinv h.bits_le⟩
  · intro r hp hm hhave hleft
    obtain ⟨hgood, hlazy, -⟩ := hinv.load mem nextIn availIn availOut
    obtain ⟨hgood', hf⟩ := hp.good hgood hlazy
    have hok := hgood'.ok
    simp only [InflateState.Ok, hm] at hok
    have hstep : r.step flush = r.enterFast := by
      unfold Regs.step
      rw [hm]
      exact if_pos ⟨hhave, hleft⟩
    rw [hstep]
    exact ⟨(hf.lazy hlazy).unfinished hm hok,
      Regs.enterFast_givesBack hgood' (hf.lazy hlazy) hm ⟨hhave, hleft⟩⟩

/-- A fixed block in a raw stream enters `inflate_fast` in the fourth pass. -/
theorem accumulator_bounded_fixed :
    ∃ r, Regs.Passes .noFlush ((fresh (-15) rfl).load (memOf [0x03]) 0 20 300) r ∧
      r.acc.bits = 5 ∧ ∃ r', r.step .noFlush = .loop r' ∧ r.GivesBack r' := by
  have h1 : ∃ r, ((fresh (-15) rfl).load (memOf [0x03]) 0 20 300).step .noFlush = .loop r ∧
      ∃ r', r.step .noFlush = .loop r' ∧ ∃ r'', r'.step .noFlush = .loop r'' ∧
        r''.st.mode = .len ∧ r''.acc.bits = 5 ∧ r''.acc.have_ = 19 ∧ r''.left = 300 :=
    ⟨_, rfl, _, rfl, _, rfl, rfl, rfl, rfl, rfl⟩
  obtain ⟨r, hr, r', hr', r'', hr'', hm, hbits, hhave, hleft⟩ := h1
  have hp : Regs.Passes .noFlush ((fresh (-15) rfl).load (memOf [0x03]) 0 20 300) r'' :=
    .head hr (.head hr' (.single hr''))
  have hrun : Run (fun _ _ => True) (fresh (-15) rfl) := fresh_run rfl
  refine ⟨r'', hp, hbits, ?_⟩
  exact ((accumulator_bounded hrun (memOf [0x03]) 0 20 300 .noFlush).2 r'' hp hm
    (by rw [hhave]; decide) (by rw [hleft]; decide)).2

end Session
end ZlibNg
